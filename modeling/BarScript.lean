import BarScript.Proofs.Arguments.Keyed
import BarScript.Proofs.Arguments.Offsets
import BarScript.Proofs.CallSites
import BarScript.Proofs.Containment
import BarScript.Proofs.Convergence
import BarScript.Proofs.Days
import BarScript.Proofs.Hygiene.Compiled
import BarScript.Proofs.Locals.Compiled
import BarScript.Proofs.Names
import BarScript.Proofs.Naming.Uniqueness
import BarScript.Proofs.Refusals
import BarScript.Proofs.Retention.Runs
import BarScript.Proofs.Retention.Truncation
import BarScript.Proofs.RoundTrip.Arrows
import BarScript.Proofs.Rows
import BarScript.Proofs.Sharing.Fleet
import BarScript.Proofs.Slotting.Bars
import BarScript.Proofs.Targets
import BarScript.Proofs.Temporaries
import BarScript.Proofs.Tokens.Escapes
import BarScript.Script.Data
