import BarScript.Indicator.Basic
import BarScript.Proofs.Output

/-!
# Runs, bar by bar

A run records as it goes. Here the two are taken apart: `Indicator.rows` runs the
bars and gives their rows, and the output of a run is made of these rows
afterwards. Facts about the script are then facts about bars, and facts about
outputs are facts about lists of rows.
-/

namespace BarScript

open Machine

namespace Indicator

variable (ind : Indicator)

def bar (c : Candle) : Exec Snapshot := do
  beginStep c
  ind.invoke

def rows : List Candle → Exec (List Output.Row)
  | [] => return []
  | c :: rest => do
    let v ← ind.bar c
    return (c.ts, v) :: (← rows rest)

theorem step_eq (c : Candle) (o : Output) :
    ind.step c o = (fun v => o.record c.ts v) <$> ind.bar c := by
  unfold step bar
  rw [← bind_pure_comp, bind_assoc]

end Indicator

def Output.addRows (o : Output) (rows : List Row) : Output :=
  rows.foldl (fun o row => o.record row.1 row.2) o

theorem Indicator.record_eq (ind : Indicator) (cs : List Candle) (o : Output) :
    ind.record cs o = o.addRows <$> ind.rows cs := by
  induction cs generalizing o with
  | nil => rfl
  | cons c cs ih =>
    rw [record, step_eq, rows]
    simp only [ih, ← bind_pure_comp, bind_assoc, pure_bind]
    rfl

/-- How a run ends, without the machine it leaves. -/
def Ending.outcome {α : Type} : Ending α → Except Halt α
  | .ok a _ => .ok a
  | .error e _ => .error e

theorem Indicator.run_outcome (ind : Indicator) (config : Config) (cs : List Candle) :
    (ind.run config cs).1.map Prod.fst =
      (Ending.outcome (ind.rows cs (ind.machine config))).map (Output.addRows {}) := by
  unfold run
  rw [record_eq]
  have hmap : (Output.addRows {} <$> ind.rows cs).run (ind.machine config) =
      EStateM.map (Output.addRows {}) (ind.rows cs) (ind.machine config) := rfl
  rw [hmap]
  unfold EStateM.map
  cases ind.rows cs (ind.machine config) <;> rfl

theorem Indicator.rows_concat (ind : Indicator) (cs : List Candle) (c : Candle) :
    ind.rows (cs ++ [c]) = (do
      let rows ← ind.rows cs
      let v ← ind.bar c
      return rows ++ [(c.ts, v)]) := by
  induction cs with
  | nil => simp only [List.nil_append, rows, pure_bind]
  | cons d cs ih =>
    rw [List.cons_append, rows, ih, rows]
    simp only [bind_assoc, pure_bind, List.cons_append]

def Candle.flat (ts : Int) (price : Float) : Candle :=
  ⟨ts, .daily, price, price, price, price, 0⟩

end BarScript
