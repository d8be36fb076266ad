import BarScript.Feed.Daily
import Mathlib

/-!
# Grids of days

The days of a grid are laid out from the first to the last, each of them one day after the
one before it. Since the first one lies a whole number of days before the day of the end, all
of them begin at midnight, and the last one contains the end, before the epoch as after it.
-/

namespace BarScript.Feed

open List

/-- A day next to another one. -/
structure Precedes (c d : Candle) : Prop where
  ts : d.ts = c.ts + TimeUnit.day.milliseconds
  closeTs : c.closeTs = d.ts - 1
  opening : d.opening = c.close

/-- A candle of one day, from midnight on. -/
structure IsDay (c : Candle) : Prop where
  midnight : TimeUnit.day.milliseconds ∣ c.ts
  timeframe : c.timeframe = .daily
  high : c.high = Number.maxNum c.opening c.close
  low : c.low = Number.minNum c.opening c.close
  volume : c.volume = 0.0

variable {ts : Int} {opening : Float}

theorem map_close_daysFrom (ts : Int) (opening : Float) (closes : List Float) :
    (daysFrom ts opening closes).map Candle.close = closes := by
  induction closes generalizing ts opening with
  | nil => rfl
  | cons c rest ih => exact congrArg (c :: ·) (ih _ c)

/-- Days that the calendar has next to each other: no time in them wraps around. -/
theorem isChain_daysFrom (closes : List Float) (hfirst : earliest ≤ ts)
    (hlast : ts + (closes.length - 1) * TimeUnit.day.milliseconds ≤ latest) :
    (daysFrom ts opening closes).IsChain Precedes := by
  induction closes generalizing ts opening with
  | nil => exact .nil
  | cons c rest ih =>
    cases rest with
    | nil => exact .singleton _
    | cons d rest =>
      have hday : TimeUnit.day.milliseconds = 86400000 := rfl
      have hduration : TimeFrame.daily.duration = 86400000 := rfl
      unfold earliest latest at *
      rw [hday] at hlast
      push_cast [length_cons] at hlast
      refine .cons_cons ⟨rfl, ?_, rfl⟩ (ih ?_ ?_)
      · show (ts + TimeFrame.daily.duration - 1).bmod _ = ts + TimeUnit.day.milliseconds - 1
        rw [hduration, hday]
        exact Int.bmod_eq_of_le_mul_two (by omega) (by omega)
      · rw [hday]
        omega
      · rw [hday]
        push_cast [length_cons]
        omega

theorem isDay_of_mem_daysFrom (hts : TimeUnit.day.milliseconds ∣ ts) (closes : List Float) :
    ∀ c ∈ daysFrom ts opening closes, IsDay c := by
  induction closes generalizing ts opening with
  | nil => simp [daysFrom]
  | cons c rest ih =>
    refine forall_mem_cons.2 ⟨⟨hts, rfl, rfl, rfl, rfl⟩, ?_⟩
    exact ih (dvd_add hts dvd_rfl)

theorem ts_getLast?_daysFrom (ts : Int) (opening : Float) (closes : List Float) :
    ∀ c ∈ (daysFrom ts opening closes).getLast?,
      c.ts = ts + ((closes.length : Int) - 1) * TimeUnit.day.milliseconds := by
  induction closes generalizing ts opening with
  | nil => simp [daysFrom]
  | cons c rest ih =>
    cases rest with
    | nil => simp [daysFrom, Feed.day]
    | cons d rest =>
      intro e he
      rw [ih (ts + TimeUnit.day.milliseconds) c e he]
      push_cast [length_cons]
      ring

/-- **Closes become a grid of days without gaps** that ends on the day of a moment. -/
theorem daily_is_grid (endTs : Int) (closes : List Float) (hearliest : earliest ≤ endTs)
    (hlatest : endTs ≤ latest)
    (hfirst : earliest ≤ endTs / TimeUnit.day.milliseconds * TimeUnit.day.milliseconds -
      (closes.length - 1) * TimeUnit.day.milliseconds) :
    ∃ candles, daily endTs closes = .ok candles ∧ candles.map Candle.close = closes ∧
      candles.IsChain Precedes ∧ (∀ c ∈ candles, IsDay c) ∧
      (∀ c ∈ candles.head?, c.opening = c.close) ∧
      ∀ c ∈ candles.getLast?, c.ts ≤ endTs ∧ endTs < c.ts + TimeUnit.day.milliseconds := by
  have halign : TimeFrame.daily.align endTs =
      endTs / TimeUnit.day.milliseconds * TimeUnit.day.milliseconds := rfl
  generalize hts : endTs / TimeUnit.day.milliseconds * TimeUnit.day.milliseconds -
    (closes.length - 1) * TimeUnit.day.milliseconds = first at hfirst
  refine ⟨daysFrom first (closes.headD 0) closes, ?_, map_close_daysFrom _ _ _,
    isChain_daysFrom _ hfirst ?_, isDay_of_mem_daysFrom ?_ _, ?_, ?_⟩
  · unfold daily
    rw [if_neg (by simpa using ⟨hearliest, hlatest⟩), halign]
    dsimp only
    rw [hts]
    cases closes with
    | nil => rfl
    | cons c rest => exact if_neg (Int.not_lt.2 hfirst)
  · have hday : TimeUnit.day.milliseconds = 86400000 := rfl
    rw [hday] at hts ⊢
    omega
  · rw [← hts, ← Int.sub_mul]
    exact dvd_mul_left _ _
  · cases closes with
    | nil => simp [daysFrom]
    | cons c rest => simp [daysFrom, Feed.day]
  · intro c hc
    have hlast := ts_getLast?_daysFrom _ _ _ c hc
    have hday : TimeUnit.day.milliseconds = 86400000 := rfl
    rw [hday] at hts hlast ⊢
    omega

/-- A moment before the epoch. -/
theorem daily_is_grid_before_epoch : earliest ≤ -1 ∧ -1 ≤ latest ∧
    ∃ candles, daily (-1) [1, 2] = .ok candles ∧ candles.IsChain Precedes ∧
      ∀ c ∈ candles.getLast?, c.ts ≤ -1 ∧ -1 < c.ts + TimeUnit.day.milliseconds := by
  obtain ⟨candles, hok, -, hchain, -, -, hlast⟩ :=
    daily_is_grid (-1) [1, 2] (by decide) (by decide) (by decide)
  exact ⟨by decide, by decide, candles, hok, hchain, hlast⟩

end BarScript.Feed
