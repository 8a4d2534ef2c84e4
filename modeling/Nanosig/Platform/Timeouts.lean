import Nanosig.Platform.Clock

/-! The timeouts of `ns_platform_waitset_wait`: how four backends turn microseconds
into the wait of their system. -/
namespace Nanosig.Platform

/- `NS_PLATFORM_WAIT_INFINITE_US`. -/
def waitInfiniteUs : Nat := 2 ^ 64 - 1

def int64Max : Nat := 2 ^ 63 - 1

/- A native wait: without bound, for a time from now, until a time of the system
clock, or refused by the call that arms it. -/
inductive NativeWait where
  | forever
  | relative (us : ℚ)
  | absolute (at_ : Int)
  | refused
  deriving DecidableEq

/- No longer than; only waits from now and unbounded ones compare. -/
def NativeWait.AtMost : NativeWait → NativeWait → Prop
  | .relative us, .relative us' => us ≤ us'
  | .relative _, .forever => True
  | .forever, .forever => True
  | _, _ => False

/- An empty waitset never waits without bound; `emptyMaxUs` is `NS_PLATFORM_WAIT_EMPTY_MAX_US`. -/
def cappedTimeout (emptyMaxUs members timeoutUs : Nat) : Nat :=
  if members = 0 ∧ timeoutUs = waitInfiniteUs then emptyMaxUs else timeoutUs

/-! FreeRTOS. -/

/- `ns_freertos_us_to_ticks`. -/
def usToTicks (c : TickConfig) (timeoutUs : Nat) : Nat :=
  if timeoutUs = waitInfiniteUs then c.portMaxDelay
  else if timeoutUs = 0 then 0
  else
    let whole := wrap64 (timeoutUs / 1000000 * c.tickRateHz)
    let ticks := wrap64 (whole + wrap64 (wrap64 (timeoutUs % 1000000 * c.tickRateHz) + 999999) / 1000000)
    if ticks ≥ c.portMaxDelay then c.portMaxDelay else ticks

def TickConfig.wait (c : TickConfig) (ticks : Nat) : NativeWait :=
  if ticks = c.portMaxDelay then .forever else .relative (ticks * 1000000 / c.tickRateHz)

/-! Zephyr. -/

inductive KTimeout where
  | forever
  | noWait
  | ticks (n : Nat)
  deriving DecidableEq, Repr

/- `ns_zephyr_us_to_timeout`; `kUsec` is the kernel's `K_USEC`, in ticks. -/
def usToTimeout (kUsec : Nat → Nat) (timeoutUs : Nat) : KTimeout :=
  if timeoutUs = waitInfiniteUs then .forever
  else if timeoutUs = 0 then .noWait
  else if timeoutUs > int64Max / 1000 then .forever
  else .ticks (kUsec timeoutUs)

def KTimeout.wait (ticksPerSec : Nat) : KTimeout → NativeWait
  | .forever => .forever
  | .noWait => .relative 0
  | .ticks n => .relative (n * 1000000 / ticksPerSec)

/-! Windows. -/

/- The `LONGLONG` with the bits of a 64-bit word. -/
def longlong (word : Nat) : Int := if word < 2 ^ 63 then word else (word : Int) - 2 ^ 64

/- `due.QuadPart`, in units of 100 ns. -/
def dueTime (timeoutUs : Nat) : Int := longlong (wrap64 (2 ^ 64 - wrap64 (timeoutUs * 10)))

/- `SetWaitableTimer` takes a negative due time from now and any other as a time of
the system clock; `timeout_us == 0` polls and the infinite value arms no timer. -/
def windowsWait (timeoutUs : Nat) : NativeWait :=
  if timeoutUs = 0 then .relative 0
  else if timeoutUs = waitInfiniteUs then .forever
  else if dueTime timeoutUs < 0 then .relative (-dueTime timeoutUs / 10) else .absolute (dueTime timeoutUs)

/-! Linux. -/

/- A `time_t` of `bits` bits with the low bits of `n`. -/
def timeT (bits n : Nat) : Int :=
  let word := n % 2 ^ bits
  if word < 2 ^ (bits - 1) then word else (word : Int) - 2 ^ bits

/- `timerfd_settime` refuses a negative time and disarms on a zero one; the wait
itself has no timeout of its own then. -/
def linuxWait (timeBits timeoutUs : Nat) : NativeWait :=
  if timeoutUs = 0 then .relative 0
  else if timeoutUs = waitInfiniteUs then .forever
  else
    let tvSec := timeT timeBits (timeoutUs / 1000000)
    let tvNsec := timeoutUs % 1000000 * 1000
    if tvSec < 0 then .refused
    else if tvSec = 0 ∧ tvNsec = 0 then .forever
    else .relative (tvSec * 1000000 + tvNsec / 1000)

/- Finite timeouts of the range stay finite, relative and long enough, except those
that saturate; longer ones wait no shorter. -/
structure KeepsTimeouts (wait : Nat → NativeWait) (inRange saturates : Nat → Prop) : Prop where
  finite : ∀ t, t ≤ int64Max → inRange t → ¬ saturates t → ∃ us : ℚ, wait t = .relative us ∧ (t : ℚ) ≤ us
  saturated : ∀ t, t ≤ int64Max → inRange t → saturates t → wait t = .forever
  monotone : ∀ t t', t' ≤ int64Max → inRange t → inRange t' → t ≤ t' → (wait t).AtMost (wait t')

theorem keepsTimeouts {wait : Nat → NativeWait} {inRange saturates : Nat → Prop} (us : Nat → ℚ)
    (finite : ∀ t, t ≤ int64Max → inRange t → ¬ saturates t → wait t = .relative (us t))
    (saturated : ∀ t, t ≤ int64Max → inRange t → saturates t → wait t = .forever)
    (enough : ∀ t : Nat, (t : ℚ) ≤ us t) (monotone : ∀ t t' : Nat, t ≤ t' → us t ≤ us t')
    (upward : ∀ t t', t ≤ t' → saturates t → saturates t') : KeepsTimeouts wait inRange saturates where
  finite t small range low := ⟨us t, finite t small range low, enough t⟩
  saturated := saturated
  monotone t t' small range range' order := by
    by_cases low : saturates t
    · rw [saturated t (Nat.le_trans order small) range low, saturated t' small range' (upward t t' order low)]
      trivial
    · rw [finite t (Nat.le_trans order small) range low]
      by_cases low' : saturates t'
      · rw [saturated t' small range' low']
        trivial
      · rw [finite t' small range' low']
        exact monotone t t' order

def ceilTicks (rate t : Nat) : Nat := (t * rate + 999999) / 1000000

theorem ceilTicksMono {rate t t' : Nat} (order : t ≤ t') : ceilTicks rate t ≤ ceilTicks rate t' :=
  Nat.div_le_div_right (Nat.add_le_add_right (Nat.mul_le_mul_right rate order) _)

theorem ceilTicksEnough {rate : Nat} (running : 0 < rate) (t : Nat) : (t : ℚ) ≤ (ceilTicks rate t : ℚ) * 1000000 / rate := by
  have up : t * rate ≤ ceilTicks rate t * 1000000 := by
    unfold ceilTicks
    omega
  rw [le_div_iff₀ (by exact_mod_cast running)]
  exact_mod_cast up

theorem ceilTicksWaitMono {rate t t' : Nat} (order : t ≤ t') :
    (ceilTicks rate t : ℚ) * 1000000 / rate ≤ (ceilTicks rate t' : ℚ) * 1000000 / rate := by
  have up : (ceilTicks rate t : ℚ) ≤ ceilTicks rate t' := by exact_mod_cast ceilTicksMono order
  gcongr

theorem finiteNotInfinite {t : Nat} (small : t ≤ int64Max) : t ≠ waitInfiniteUs := by
  have : int64Max < waitInfiniteUs := by decide
  omega

theorem cappedFinite {t : Nat} (emptyMaxUs members : Nat) (small : t ≤ int64Max) : cappedTimeout emptyMaxUs members t = t :=
  if_neg fun both => finiteNotInfinite small both.2

/- The 64-bit products and sums of `ns_freertos_us_to_ticks` do not overflow. -/
def TicksFit (c : TickConfig) (t : Nat) : Prop :=
  t % 1000000 * c.tickRateHz + 999999 < 2 ^ 64 ∧
    t / 1000000 * c.tickRateHz + (t % 1000000 * c.tickRateHz + 999999) / 1000000 < 2 ^ 64

theorem ticksFitMegahertz {c : TickConfig} (rate : c.tickRateHz ≤ 1000000) {t : Nat} (small : t ≤ int64Max) : TicksFit c t := by
  have rest : t % 1000000 * c.tickRateHz ≤ 999999 * 1000000 :=
    Nat.mul_le_mul (Nat.le_of_lt_succ (Nat.mod_lt t (by decide))) rate
  have whole : t / 1000000 * c.tickRateHz ≤ int64Max :=
    ((Nat.mul_le_mul_left _ rate).trans (Nat.div_mul_le_self t 1000000)).trans small
  refine ⟨Nat.lt_of_le_of_lt (Nat.add_le_add_right rest _) (by decide), ?_⟩
  calc t / 1000000 * c.tickRateHz + (t % 1000000 * c.tickRateHz + 999999) / 1000000
      ≤ int64Max + (999999 * 1000000 + 999999) / 1000000 :=
        Nat.add_le_add whole (Nat.div_le_div_right (Nat.add_le_add_right rest _))
    _ < 2 ^ 64 := by decide

theorem ticksSplit (rate t : Nat) : t / 1000000 * rate + (t % 1000000 * rate + 999999) / 1000000 = ceilTicks rate t := by
  have parts : t * rate + 999999 = t % 1000000 * rate + 999999 + t / 1000000 * rate * 1000000 := by
    conv_lhs => rw [← Nat.div_add_mod t 1000000]
    ring
  rw [ceilTicks, parts, Nat.add_mul_div_right _ _ (by decide), Nat.add_comm]

theorem usToTicksExact {c : TickConfig} {t : Nat} (small : t ≤ int64Max) (fits : TicksFit c t) :
    usToTicks c t = min (ceilTicks c.tickRateHz t) c.portMaxDelay := by
  obtain ⟨rest, total⟩ := fits
  unfold usToTicks
  rw [if_neg (finiteNotInfinite small)]
  by_cases zero : t = 0
  · subst zero
    simp [ceilTicks]
  · rw [if_neg zero, wrap64Small (Nat.lt_of_le_of_lt (Nat.le_add_right _ _) rest), wrap64Small rest,
      wrap64Small (Nat.lt_of_le_of_lt (Nat.le_add_right _ _) total)]
    dsimp only
    rw [wrap64Small total, ticksSplit]
    split <;> omega

/- The timeouts that are fewer than `portMAX_DELAY` ticks. -/
def TicksFinite (c : TickConfig) (t : Nat) : Prop := TicksFit c t ∧ ceilTicks c.tickRateHz t < c.portMaxDelay

theorem ticksFiniteMegahertz {c : TickConfig} (rate : c.tickRateHz ≤ 1000000) {t : Nat} (small : t ≤ int64Max) :
    TicksFinite c t ↔ ceilTicks c.tickRateHz t < c.portMaxDelay := and_iff_right (ticksFitMegahertz rate small)

theorem freertosKeeps (c : TickConfig) (emptyMaxUs members : Nat) :
    KeepsTimeouts (fun t => c.wait (usToTicks c (cappedTimeout emptyMaxUs members t))) (TicksFinite c) fun _ => False := by
  refine keepsTimeouts (fun t => (ceilTicks c.tickRateHz t : ℚ) * 1000000 / c.tickRateHz) ?_ (fun _ _ _ never => never.elim)
    (ceilTicksEnough c.running) (fun t t' order => ceilTicksWaitMono order) fun _ _ _ never => never
  intro t small range _
  obtain ⟨fits, short⟩ := range
  rw [cappedFinite emptyMaxUs members small, usToTicksExact small fits, Nat.min_eq_left (by omega), TickConfig.wait,
    if_neg (by omega)]

/- What the kernel's documentation says of `K_USEC`: whole ticks, rounded up. -/
structure KUsecRounds (kUsec : Nat → Nat) (ticksPerSec : Nat) : Prop where
  running : 0 < ticksPerSec
  rounds : ∀ t, t ≤ int64Max / 1000 → kUsec t = ceilTicks ticksPerSec t

theorem zephyrKeeps {kUsec : Nat → Nat} {ticksPerSec : Nat} (kernel : KUsecRounds kUsec ticksPerSec) (emptyMaxUs members : Nat) :
    KeepsTimeouts (fun t => (usToTimeout kUsec (cappedTimeout emptyMaxUs members t)).wait ticksPerSec) (fun _ => True)
      fun t => int64Max / 1000 < t := by
  refine keepsTimeouts (fun t => (ceilTicks ticksPerSec t : ℚ) * 1000000 / ticksPerSec) ?_ ?_ (ceilTicksEnough kernel.running)
    (fun t t' order => ceilTicksWaitMono order) fun t t' order long => Nat.lt_of_lt_of_le long order
  · intro t small _ short
    rw [cappedFinite emptyMaxUs members small, usToTimeout, if_neg (finiteNotInfinite small)]
    by_cases zero : t = 0
    · rw [if_pos zero, zero]
      simp [KTimeout.wait, ceilTicks]
    · rw [if_neg zero, if_neg short, kernel.rounds t (Nat.le_of_not_lt short), KTimeout.wait]
  · intro t small _ long
    have above : t ≠ 0 := by omega
    rw [cappedFinite emptyMaxUs members small, usToTimeout, if_neg (finiteNotInfinite small), if_neg above, if_pos long,
      KTimeout.wait]

theorem dueTimeExact {t : Nat} (small : t ≤ int64Max / 10) (some_ : t ≠ 0) : dueTime t = -(t * 10 : Nat) := by
  have tenth : int64Max / 10 = 922337203685477580 := by decide
  have below : t * 10 < 2 ^ 63 := by omega
  have tens : wrap64 (t * 10) = t * 10 := Nat.mod_eq_of_lt (by omega)
  have negated : wrap64 (2 ^ 64 - t * 10) = 2 ^ 64 - t * 10 := Nat.mod_eq_of_lt (by omega)
  unfold dueTime longlong
  rw [tens, negated, if_neg (by omega)]
  omega

theorem windowsKeeps (emptyMaxUs members : Nat) :
    KeepsTimeouts (fun t => windowsWait (cappedTimeout emptyMaxUs members t)) (· ≤ int64Max / 10) fun _ => False := by
  refine keepsTimeouts (fun t => (t : ℚ)) ?_ (fun _ _ _ never => never.elim) (fun _ => le_refl _)
    (fun t t' order => by exact_mod_cast order) fun _ _ _ never => never
  intro t small range _
  rw [cappedFinite emptyMaxUs members small, windowsWait]
  by_cases zero : t = 0
  · rw [if_pos zero, zero, Nat.cast_zero]
  · have due := dueTimeExact range zero
    have before : dueTime t < 0 := by omega
    rw [if_neg zero, if_neg (finiteNotInfinite small), if_pos before, due]
    congr 1
    push_cast
    ring

theorem linuxKeeps (timeBits emptyMaxUs members : Nat) :
    KeepsTimeouts (fun t => linuxWait timeBits (cappedTimeout emptyMaxUs members t))
      (fun t => t / 1000000 < 2 ^ (timeBits - 1)) fun _ => False := by
  refine keepsTimeouts (fun t => (t : ℚ)) ?_ (fun _ _ _ never => never.elim) (fun _ => le_refl _)
    (fun t t' order => by exact_mod_cast order) fun _ _ _ never => never
  intro t small range _
  have seconds : timeT timeBits (t / 1000000) = (t / 1000000 : Nat) := by
    have wider : 2 ^ (timeBits - 1) ≤ 2 ^ timeBits := Nat.pow_le_pow_right (by decide) (Nat.sub_le _ _)
    unfold timeT
    rw [Nat.mod_eq_of_lt (by omega), if_pos range]
  rw [cappedFinite emptyMaxUs members small, linuxWait]
  by_cases zero : t = 0
  · rw [if_pos zero, zero, Nat.cast_zero]
  · have armed : ¬ (((t / 1000000 : Nat) : Int) = 0 ∧ t % 1000000 * 1000 = 0) := by omega
    rw [if_neg zero, if_neg (finiteNotInfinite small)]
    dsimp only
    rw [seconds, if_neg (by omega), if_neg armed]
    congr 1
    have split : (t : ℚ) = (t / 1000000 : Nat) * 1000000 + (t % 1000000 : Nat) := by
      exact_mod_cast (Nat.div_add_mod' t 1000000).symm
    have whole : (((t / 1000000 : Nat) : Int) : ℚ) = (t / 1000000 : Nat) := Int.cast_natCast _
    rw [split, whole]
    push_cast
    ring

theorem infiniteForever (c : TickConfig) (kUsec : Nat → Nat) (ticksPerSec timeBits : Nat) :
    c.wait (usToTicks c waitInfiniteUs) = .forever ∧ (usToTimeout kUsec waitInfiniteUs).wait ticksPerSec = .forever ∧
      windowsWait waitInfiniteUs = .forever ∧ linuxWait timeBits waitInfiniteUs = .forever := by
  refine ⟨?_, rfl, rfl, rfl⟩
  rw [usToTicks, if_pos rfl, TickConfig.wait, if_pos rfl]

structure BackendsKeepTimeouts (kUsec : Nat → Nat) (ticksPerSec : Nat) : Prop where
  freertos : ∀ (c : TickConfig) (emptyMaxUs members : Nat),
    KeepsTimeouts (fun t => c.wait (usToTicks c (cappedTimeout emptyMaxUs members t))) (TicksFinite c) fun _ => False
  freertosRange : ∀ c : TickConfig, c.tickRateHz ≤ 1000000 → ∀ t, t ≤ int64Max →
    (TicksFinite c t ↔ ceilTicks c.tickRateHz t < c.portMaxDelay)
  zephyr : ∀ emptyMaxUs members : Nat,
    KeepsTimeouts (fun t => (usToTimeout kUsec (cappedTimeout emptyMaxUs members t)).wait ticksPerSec) (fun _ => True)
      fun t => int64Max / 1000 < t
  windows : ∀ emptyMaxUs members : Nat,
    KeepsTimeouts (fun t => windowsWait (cappedTimeout emptyMaxUs members t)) (· ≤ int64Max / 10) fun _ => False
  linux : ∀ timeBits emptyMaxUs members : Nat,
    KeepsTimeouts (fun t => linuxWait timeBits (cappedTimeout emptyMaxUs members t))
      (fun t => t / 1000000 < 2 ^ (timeBits - 1)) fun _ => False
  linuxRange : ∀ timeBits, 64 ≤ timeBits → ∀ t, t ≤ int64Max → t / 1000000 < 2 ^ (timeBits - 1)
  infinite : ∀ (c : TickConfig) (timeBits : Nat), c.wait (usToTicks c waitInfiniteUs) = .forever ∧
    (usToTimeout kUsec waitInfiniteUs).wait ticksPerSec = .forever ∧ windowsWait waitInfiniteUs = .forever ∧
      linuxWait timeBits waitInfiniteUs = .forever

theorem backendsKeepTimeouts {kUsec : Nat → Nat} {ticksPerSec : Nat} (kernel : KUsecRounds kUsec ticksPerSec) :
    BackendsKeepTimeouts kUsec ticksPerSec where
  freertos := freertosKeeps
  freertosRange _ rate _ small := ticksFiniteMegahertz rate small
  zephyr := zephyrKeeps kernel
  windows := windowsKeeps
  linux := linuxKeeps
  linuxRange timeBits wide t small := by
    have most : int64Max < 2 ^ 63 := by decide
    have wider : 2 ^ 63 ≤ 2 ^ (timeBits - 1) := Nat.pow_le_pow_right (by decide) (by omega)
    exact Nat.lt_of_le_of_lt (Nat.div_le_self t _) (Nat.lt_of_le_of_lt small (Nat.lt_of_lt_of_le most wider))
  infinite c timeBits := infiniteForever c kUsec ticksPerSec timeBits

theorem backendsAtTenKilohertz : BackendsKeepTimeouts (ceilTicks 10000) 10000 :=
  backendsKeepTimeouts ⟨by decide, fun _ _ => rfl⟩

/- Finite timeouts that wait without bound, and one that ends at once: 292 thousand
years on Zephyr, 49.7 days on FreeRTOS with 32-bit ticks, and past `INT64_MAX / 10`
on Windows, where the due time is a time of the year 1601. -/
theorem finiteTimeoutsForever :
    (9223372036854776 ≤ int64Max ∧ (usToTimeout (ceilTicks 10000) 9223372036854776).wait 10000 = .forever) ∧
      (4294967295000 ≤ int64Max ∧
        TickConfig.wait ⟨32, 1000, by decide, by decide, by decide, by decide⟩
          (usToTicks ⟨32, 1000, by decide, by decide, by decide, by decide⟩ 4294967295000) = .forever) ∧
      (1844674407370955161 ≤ int64Max ∧ windowsWait 1844674407370955161 = .absolute 6) := by
  refine ⟨⟨by decide, rfl⟩, ⟨by decide, by decide⟩, ⟨by decide, by decide⟩⟩

end Nanosig.Platform
