import Nanosig.Lib.WrappingCounter

/-! The clock of the FreeRTOS backend: a `TickType_t` that wraps, extended into a
64-bit count of ticks at every sample. -/
namespace Nanosig.Platform

/- `uint64_t` arithmetic. -/
def wrap64 (n : Nat) : Nat := n % 2 ^ 64

theorem wrap64Small {n : Nat} (small : n < 2 ^ 64) : wrap64 n = n := Nat.mod_eq_of_lt small

/- The two constants of `FreeRTOSConfig.h` that the time conversions read. -/
structure TickConfig where
  tickBits : Nat
  tickRateHz : Nat
  wide : 0 < tickBits
  narrow : tickBits ≤ 64
  running : 0 < tickRateHz
  rateFits : tickRateHz < 2 ^ 64

namespace TickConfig

variable (c : TickConfig)

def period : Nat := 2 ^ c.tickBits

/- `portMAX_DELAY`, with which a FreeRTOS call blocks without bound. -/
def portMaxDelay : Nat := c.period - 1

/- What `xTaskGetTickCount` reads `elapsed` ticks after boot. -/
def tickCount (elapsed : Nat) : Nat := elapsed % c.period

end TickConfig

/- `ns_freertos_ticks_last` and `ns_freertos_ticks_accum`. -/
structure TickClock where
  last : Nat
  accum : Nat
  deriving DecidableEq, Repr

def TickClock.boot : TickClock := ⟨0, 0⟩

/- `ns_freertos_now_us` on the tick count `now`; the conversion to microseconds
comes after its critical section. -/
def nowUs (c : TickConfig) (clock : TickClock) (now : Nat) : TickClock × Nat :=
  let delta := WrappingCounter.diff c.period now clock.last
  let extended := wrap64 (clock.accum + delta)
  (⟨now, extended⟩, wrap64 (extended * 1000000) / c.tickRateHz)

def sampleTimes (c : TickConfig) : TickClock → List Nat → List Nat
  | _, [] => []
  | clock, elapsed :: rest =>
      let sampled := nowUs c clock (c.tickCount elapsed)
      sampled.2 :: sampleTimes c sampled.1 rest

/- Fewer than one period passes between two samples. -/
def Spaced (c : TickConfig) : Nat → List Nat → Prop
  | _, [] => True
  | before, elapsed :: rest => before ≤ elapsed ∧ elapsed < before + c.period ∧ Spaced c elapsed rest

def decideSpaced (c : TickConfig) : (before : Nat) → (ticks : List Nat) → Decidable (Spaced c before ticks)
  | _, [] => .isTrue trivial
  | before, elapsed :: rest =>
      have := decideSpaced c elapsed rest
      inferInstanceAs (Decidable (before ≤ elapsed ∧ elapsed < before + c.period ∧ Spaced c elapsed rest))

instance (c : TickConfig) (before : Nat) (ticks : List Nat) : Decidable (Spaced c before ticks) := decideSpaced c before ticks

/- The statics hold the tick count `elapsed`, each in its own width. -/
structure Extends (c : TickConfig) (clock : TickClock) (elapsed : Nat) : Prop where
  last : clock.last = c.tickCount elapsed
  accum : clock.accum = wrap64 elapsed

variable {c : TickConfig}

theorem extendsBoot : Extends c .boot 0 := ⟨(Nat.zero_mod _).symm, rfl⟩

theorem nowUsExtends {clock : TickClock} {before elapsed : Nat} (tracked : Extends c clock before) (order : before ≤ elapsed)
    (lap : elapsed < before + c.period) : Extends c (nowUs c clock (c.tickCount elapsed)).1 elapsed ∧
      (nowUs c clock (c.tickCount elapsed)).2 = wrap64 (elapsed * 1000000) / c.tickRateHz := by
  have delta : WrappingCounter.diff c.period (c.tickCount elapsed) clock.last = elapsed - before := by
    rw [tracked.last]
    exact WrappingCounter.diffExact order (by omega)
  have extended : wrap64 (clock.accum + WrappingCounter.diff c.period (c.tickCount elapsed) clock.last) = wrap64 elapsed := by
    rw [delta, tracked.accum]
    unfold wrap64
    rw [Nat.mod_add_mod, Nat.add_sub_cancel' order]
  refine ⟨⟨rfl, extended⟩, ?_⟩
  change wrap64 (wrap64 _ * 1000000) / _ = _
  rw [extended]
  unfold wrap64
  rw [Nat.mod_mul_mod]

theorem sampleTimesExact {clock : TickClock} {before : Nat} {ticks : List Nat} (tracked : Extends c clock before)
    (spaced : Spaced c before ticks) :
    sampleTimes c clock ticks = ticks.map fun elapsed => wrap64 (elapsed * 1000000) / c.tickRateHz := by
  induction ticks generalizing clock before with
  | nil => rfl
  | cons elapsed rest ih =>
    obtain ⟨order, lap, onward⟩ := spaced
    obtain ⟨tracked', time⟩ := nowUsExtends tracked order lap
    rw [sampleTimes, List.map_cons, time, ih tracked' onward]

theorem spacedOrdered {before : Nat} {ticks : List Nat} (spaced : Spaced c before ticks) : ticks.Pairwise (· ≤ ·) ∧ ∀ n ∈ ticks, before ≤ n := by
  induction ticks generalizing before with
  | nil => exact ⟨List.Pairwise.nil, by simp⟩
  | cons elapsed rest ih =>
    obtain ⟨order, -, onward⟩ := spaced
    obtain ⟨ordered, above⟩ := ih onward
    refine ⟨List.pairwise_cons.mpr ⟨above, ordered⟩, fun n inside => ?_⟩
    rcases List.mem_cons.mp inside with rfl | later
    · exact order
    · exact Nat.le_trans order (above n later)

/- What the callers of the clock are promised: the time of the `i`-th call is exact,
and no later call returns less, up to the last tick whose microseconds fit. -/
structure ClockExact (c : TickConfig) (ticks times : List Nat) : Prop where
  every : times.length = ticks.length
  exact : ∀ i elapsed : Nat, ticks[i]? = some elapsed → elapsed * 1000000 < 2 ^ 64 →
    times[i]? = some (elapsed * 1000000 / c.tickRateHz)
  nondecreasing : ∀ i j elapsed earlier later : Nat, i ≤ j → ticks[j]? = some elapsed → elapsed * 1000000 < 2 ^ 64 →
    times[i]? = some earlier → times[j]? = some later → earlier ≤ later

theorem clockExtended (c : TickConfig) (ticks : List Nat) (spaced : Spaced c 0 ticks) :
    ClockExact c ticks (sampleTimes c .boot ticks) := by
  have times := sampleTimesExact extendsBoot spaced
  have ordered := (spacedOrdered spaced).1
  have exact : ∀ i elapsed : Nat, ticks[i]? = some elapsed → elapsed * 1000000 < 2 ^ 64 →
      (sampleTimes c .boot ticks)[i]? = some (elapsed * 1000000 / c.tickRateHz) := by
    intro i elapsed at_ fits
    rw [times, List.getElem?_map, at_, Option.map_some, wrap64Small fits]
  refine ⟨by rw [times, List.length_map], exact, ?_⟩
  intro i j elapsed earlier later order at_ fits first second
  obtain ⟨inside, here⟩ := List.getElem?_eq_some_iff.mp at_
  have before : i < ticks.length := Nat.lt_of_le_of_lt order inside
  have below : ticks[i] ≤ elapsed := by
    rcases Nat.lt_or_eq_of_le order with less | rfl
    · rw [← here]
      exact List.pairwise_iff_getElem.mp ordered i j before inside less
    · exact Nat.le_of_eq here
  have early := exact i ticks[i] (List.getElem?_eq_getElem before) (Nat.lt_of_le_of_lt (Nat.mul_le_mul_right _ below) fits)
  rw [exact j elapsed at_ fits] at second
  rw [early] at first
  cases first
  cases second
  exact Nat.div_le_div_right (Nat.mul_le_mul_right _ below)

/- A 16-bit tick at 1 kHz, sampled across its first two wraps. -/
theorem clockTwoWraps : ClockExact ⟨16, 1000, by decide, by decide, by decide, by decide⟩ [60000, 70000, 130000, 190000]
    (sampleTimes ⟨16, 1000, by decide, by decide, by decide, by decide⟩ .boot [60000, 70000, 130000, 190000]) :=
  clockExtended _ _ (by decide)

end Nanosig.Platform
