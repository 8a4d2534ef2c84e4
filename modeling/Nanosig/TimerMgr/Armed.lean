import Nanosig.Rbtree.Operations
import Nanosig.TimerMgr.Manager

/-! The linked timers, whatever the clock does: their list, what linking and
unlinking one of them does to it, and that firing ends. -/
namespace Nanosig.TimerMgr
open WrappingCounter

variable {τ : Type}

section Remaining

theorem remainingRange (expireUs nowUs : Nat) :
    -(2 ^ 63 : Int) ≤ remainingUs expireUs nowUs ∧ remainingUs expireUs nowUs < 2 ^ 63 := by
  have range := signedDiffRange (m := uint64Modulus) (by decide) expireUs nowUs
  unfold remainingUs
  simp only [uint64Modulus, Nat.cast_pow, Nat.cast_ofNat] at range ⊢
  omega

theorem remainingFromNow {nowUs intervalUs : Nat} (small : nowUs < uint64Modulus) (interval : intervalUs ≤ int64Max) :
    remainingUs ((nowUs + intervalUs) % uint64Modulus) nowUs = intervalUs := by
  have whole := Nat.div_add_mod (nowUs + intervalUs) uint64Modulus
  refine signedDiffUnique (k := ((nowUs + intervalUs) / uint64Modulus : Nat)) (by decide) small.le ?_ ?_ ?_
  · have cast : (uint64Modulus : Int) * ((nowUs + intervalUs) / uint64Modulus : Nat) +
        ((nowUs + intervalUs) % uint64Modulus : Nat) = nowUs + intervalUs := by exact_mod_cast whole
    linarith
  · simp only [uint64Modulus, Nat.cast_pow, Nat.cast_ofNat]
    omega
  · simp only [int64Max, uint64Modulus, Nat.cast_pow, Nat.cast_ofNat] at interval ⊢
    omega

theorem remainingAdd {expireUs nowUs intervalUs : Nat} (small : nowUs < uint64Modulus)
    (near : remainingUs expireUs nowUs + intervalUs < 2 ^ 63) :
    remainingUs ((expireUs + intervalUs) % uint64Modulus) nowUs = remainingUs expireUs nowUs + intervalUs := by
  have range := remainingRange expireUs nowUs
  obtain ⟨k, same⟩ := signedDiffMod (a := expireUs) small.le
  have split : (uint64Modulus : Int) * ((expireUs + intervalUs) / uint64Modulus : Nat) +
      ((expireUs + intervalUs) % uint64Modulus : Nat) = expireUs + intervalUs := by
    exact_mod_cast Nat.div_add_mod (expireUs + intervalUs) uint64Modulus
  have half : (uint64Modulus : Int) = 2 * 2 ^ 63 := by norm_num [uint64Modulus]
  refine signedDiffUnique (k := k + ((expireUs + intervalUs) / uint64Modulus : Nat)) (by decide) small.le ?_ ?_ ?_
  · change remainingUs expireUs nowUs = _ at same
    rw [same]
    linarith
  · omega
  · omega

/- While a deadline is overdue by less than `2^63`, its remaining time falls as the clock rises. -/
theorem remainingAdvance {expireUs clock reading : Nat} (order : clock ≤ reading)
    (within : (reading : Int) < clock + remainingUs expireUs (clock % uint64Modulus) + 2 ^ 63) :
    remainingUs expireUs (reading % uint64Modulus) =
      remainingUs expireUs (clock % uint64Modulus) - (reading - clock) := by
  have positive : 0 < uint64Modulus := by decide
  obtain ⟨k, same⟩ := signedDiffMod (a := expireUs) (Nat.mod_lt clock positive).le
  have range := remainingRange expireUs (clock % uint64Modulus)
  have clockSplit : (uint64Modulus : Int) * (clock / uint64Modulus : Nat) + (clock % uint64Modulus : Nat) = clock := by
    exact_mod_cast Nat.div_add_mod clock uint64Modulus
  have readingSplit :
      (uint64Modulus : Int) * (reading / uint64Modulus : Nat) + (reading % uint64Modulus : Nat) = reading := by
    exact_mod_cast Nat.div_add_mod reading uint64Modulus
  refine signedDiffUnique (k := k + (clock / uint64Modulus : Nat) - (reading / uint64Modulus : Nat)) positive
    (Nat.mod_lt reading positive).le ?_ ?_ ?_
  · change remainingUs expireUs (clock % uint64Modulus) = _ at same
    rw [same]
    linarith
  · have half : (uint64Modulus : Int) = 2 * 2 ^ 63 := by norm_num [uint64Modulus]
    omega
  · have half : (uint64Modulus : Int) = 2 * 2 ^ 63 := by norm_num [uint64Modulus]
    omega

end Remaining

variable [DecidableEq τ]

structure Armed (m : Manager τ) (L : List τ) : Prop where
  valid : Rbtree.Valid m.tree L
  now : m.now < uint64Modulus
  interval : ∀ t ∈ L, 0 < (m.timers t).intervalUs ∧ (m.timers t).intervalUs ≤ int64Max

theorem Armed.running {m : Manager τ} {L : List τ} (armed : Armed m L) {t : τ} (member : t ∈ L) :
    isRunning m t = true := by
  simp [isRunning, armed.valid.memNotEmpty member]

omit [DecidableEq τ] in
theorem Armed.refresh {m : Manager τ} {L : List τ} (armed : Armed m L) (clock : ClockRead) :
    Armed (refreshNow m clock).1 L := by
  cases clock with
  | error rc => exact armed
  | ok reading => exact { armed with now := Nat.mod_lt reading (by decide) }

structure Arms (m : Manager τ) (L : List τ) (t : τ) (expireUs : Nat) (m' : Manager τ) (earlier later : List τ) : Prop where
  split : L = earlier ++ later
  armed : Armed m' (earlier ++ t :: later)
  timers : m'.timers = Function.update m.timers t { m.timers t with expireUs := expireUs }
  now : m'.now = m.now
  clock : m'.clock = m.clock
  place : Rbtree.Monotone (cmp m') t L →
    (∀ x ∈ earlier, ¬ cmp m' t x < 0) ∧ ∀ x ∈ later, cmp m' t x < 0
  same : ∀ y, y ≠ t → y ∉ L → LinkedTree.SameAt m.tree.toHeap m'.tree.toHeap y

theorem armSpec {m : Manager τ} {L : List τ} {t : τ} (expireUs : Nat) (armed : Armed m L) (fresh : t ∉ L)
    (interval : 0 < (m.timers t).intervalUs ∧ (m.timers t).intervalUs ≤ int64Max) :
    ∃ m' earlier later, arm m t expireUs = some (m', decide (earlier = [])) ∧ Arms m L t expireUs m' earlier later := by
  obtain ⟨tree, earlier, later, added, split, valid, place, same⟩ :=
    Rbtree.addSpec armed.valid (cmp (setTimer m t { m.timers t with expireUs := expireUs })) fresh
  refine ⟨{ setTimer m t { m.timers t with expireUs := expireUs } with tree := tree }, earlier, later, ?_, split,
    ⟨valid, armed.now, fun x member => ?_⟩, rfl, rfl, rfl, place, same⟩
  · rw [arm]
    simp only [show (setTimer m t { m.timers t with expireUs := expireUs }).tree = m.tree from rfl, added,
      Option.map_some]
    by_cases first : earlier = [] <;> simp [first]
  · have kept : ((setTimer m t { m.timers t with expireUs := expireUs }).timers x).intervalUs =
        (m.timers x).intervalUs := by
      by_cases here : x = t
      · subst here
        simp [setTimer]
      · simp [setTimer, here]
    change 0 < ((setTimer m t _).timers x).intervalUs ∧ ((setTimer m t _).timers x).intervalUs ≤ int64Max
    rw [kept]
    by_cases here : x = t
    · subst here
      exact interval
    · refine armed.interval x ?_
      rw [split]
      simp only [List.mem_append, List.mem_cons] at member ⊢
      tauto

structure Disarms (m : Manager τ) (L : List τ) (t : τ) (m' : Manager τ) : Prop where
  armed : Armed m' (L.erase t)
  timers : m'.timers = m.timers
  now : m'.now = m.now
  clock : m'.clock = m.clock
  stopped : Rbtree.nodeIsEmpty m'.tree.toHeap t = true
  same : ∀ y, y ∉ L → LinkedTree.SameAt m.tree.toHeap m'.tree.toHeap y

theorem disarmSpec {m : Manager τ} {L : List τ} {t : τ} (armed : Armed m L) (member : t ∈ L) :
    ∃ m', disarm m t = some (m', decide (L.head? = some t ∧ L.tail ≠ [])) ∧ Disarms m L t m' := by
  obtain ⟨tree, deleted, valid, stopped, same⟩ := Rbtree.delSpec armed.valid member
  refine ⟨{ m with tree := tree }, ?_, ⟨valid, armed.now, fun x inside => armed.interval x (List.mem_of_mem_erase inside)⟩,
    rfl, rfl, rfl, stopped, same⟩
  rw [disarm, deleted]
  by_cases first : L.head? = some t
  · cases L.tail <;> simp [first]
  · simp [first]

section Fire

def due (m : Manager τ) (t : τ) : Prop := remaining m t ≤ 0

instance (m : Manager τ) : DecidablePred (due m) := fun _ => Int.decLe _ _

/- One round of `ns_timer_mgr_fire_expired`: the leftmost timer is due; it is
unlinked, and linked again with a deadline ahead if it repeats. -/
inductive FireRound (m : Manager τ) (L : List τ) (t : τ) : Manager τ → List τ → Prop where
  | oneshot {m' : Manager τ} (first : L.head? = some t) (isDue : due m t)
      (once : (m.timers t).attr &&& attrRepeat = 0) (disarms : Disarms m L t m') : FireRound m L t m' (L.erase t)
  | reload {mid m' : Manager τ} {earlier later : List τ} (first : L.head? = some t) (isDue : due m t)
      (repeats : (m.timers t).attr &&& attrRepeat ≠ 0) (disarms : Disarms m L t mid)
      (arms : Arms mid (L.erase t) t (reloadExpire m t (m.timers t).expireUs) m' earlier later) :
      FireRound m L t m' (earlier ++ t :: later)

inductive FireRun : Manager τ → List τ → List τ → Manager τ → List τ → Prop where
  | done {m : Manager τ} {L : List τ} (nothing : ∀ t, L.head? = some t → ¬ due m t) : FireRun m L [] m L
  | round {m m1 m' : Manager τ} {L L1 L' fired : List τ} {t : τ} (first : FireRound m L t m1 L1)
      (rest : FireRun m1 L1 fired m' L') : FireRun m L (t :: fired) m' L'

omit [DecidableEq τ] in
theorem reloadAhead {m : Manager τ} {t : τ} (small : m.now < uint64Modulus)
    (interval : 0 < (m.timers t).intervalUs ∧ (m.timers t).intervalUs ≤ int64Max) (previousExpire : Nat) :
    0 < remainingUs (reloadExpire m t previousExpire) m.now := by
  have fromNow : 0 < remainingUs (expireFromNow m t) m.now := by
    rw [expireFromNow, remainingFromNow small interval.2]
    exact_mod_cast interval.1
  unfold reloadExpire
  dsimp only
  split
  · exact fromNow
  · split
    · exact fromNow
    · omega

structure RoundKeeps (m : Manager τ) (L : List τ) (t : τ) (m' : Manager τ) (L' : List τ) : Prop where
  armed : Armed m' L'
  now : m'.now = m.now
  clock : m'.clock = m.clock
  others : ∀ x, x ≠ t → m'.timers x = m.timers x
  dueLeft : L.filter (due m) = t :: L'.filter (due m')

theorem headErase {L : List τ} {t : τ} (first : L.head? = some t) : L.erase t = L.tail ∧ t ∈ L ∧ L = t :: L.tail := by
  cases L with
  | nil => nomatch first
  | cons x rest =>
    cases first
    simp

theorem FireRound.keeps {m m' : Manager τ} {L L' : List τ} {t : τ} (round : FireRound m L t m' L') (armed : Armed m L) :
    RoundKeeps m L t m' L' := by
  cases round with
  | oneshot first isDue once disarms =>
    obtain ⟨erased, member, cons⟩ := headErase first
    have sameDue : due m' = due m := by
      funext x
      simp only [due, remaining, disarms.timers, disarms.now]
    refine ⟨disarms.armed, disarms.now, disarms.clock, fun x _ => by rw [disarms.timers], ?_⟩
    rw [erased]
    conv_lhs => rw [cons]
    simp [sameDue, isDue]
  | @reload mid _ earlier later first isDue repeats disarms arms =>
    obtain ⟨erased, member, cons⟩ := headErase first
    have others (x : τ) (apart : x ≠ t) : m'.timers x = m.timers x := by
      rw [arms.timers, Function.update_of_ne apart, disarms.timers]
    have now : m'.now = m.now := arms.now.trans disarms.now
    refine ⟨arms.armed, now, arms.clock.trans disarms.clock, others, ?_⟩
    have ahead : ¬ due m' t := by
      have expire : (m'.timers t).expireUs = reloadExpire m t (m.timers t).expireUs := by simp [arms.timers]
      have positive := reloadAhead armed.now (armed.interval t member) (m.timers t).expireUs
      rw [due, remaining, expire, now]
      omega
    have fresh : t ∉ L.tail := (List.nodup_cons.mp (cons ▸ armed.valid.nodup)).1
    have unchanged : L.tail.filter (due m') = L.tail.filter (due m) := by
      refine List.filter_congr fun x inside => ?_
      have apart : x ≠ t := fun e => fresh (e ▸ inside)
      exact decide_eq_decide.mpr (by rw [due, due, remaining, remaining, others x apart, now])
    have moved : (earlier ++ t :: later).filter (due m') = L.tail.filter (due m') := by
      rw [← erased, arms.split, List.filter_append, List.filter_append, List.filter_cons]
      simp [ahead]
    rw [moved, unchanged]
    conv_lhs => rw [cons]
    simp [isDue]

theorem fireRoundSpec {m : Manager τ} {L : List τ} {t : τ} (armed : Armed m L) (first : L.head? = some t)
    (isDue : due m t) : ∃ mid m' L', disarm m t = some (mid, decide (L.head? = some t ∧ L.tail ≠ [])) ∧
      reload mid t (m.timers t).expireUs = some m' ∧ FireRound m L t m' L' := by
  have member := (headErase first).2.1
  obtain ⟨mid, disarmed, disarms⟩ := disarmSpec armed member
  by_cases once : (m.timers t).attr &&& attrRepeat = 0
  · exact ⟨mid, mid, _, disarmed, by rw [reload, disarms.timers, if_neg (not_not.mpr once)], .oneshot first isDue once disarms⟩
  · have same : reloadExpire mid t (m.timers t).expireUs = reloadExpire m t (m.timers t).expireUs := by
      simp only [reloadExpire, expireFromNow, disarms.timers, disarms.now]
    have fresh : t ∉ L.erase t := fun inside =>
      absurd (armed.valid.nodup.mem_erase_iff.mp inside).1 (not_not.mpr rfl)
    obtain ⟨m', earlier, later, armed', arms⟩ := armSpec (reloadExpire m t (m.timers t).expireUs) disarms.armed fresh
      (by rw [disarms.timers]; exact armed.interval t member)
    exact ⟨mid, m', _, disarmed, by rw [reload, disarms.timers, if_pos once, same, armed']; rfl,
      .reload first isDue once disarms arms⟩

/- `first_error` after the emits numbered from `start`. -/
def errorAfter (emit : Nat → Status) (start count : Nat) (firstError : Status) : Status :=
  ((List.range' start count).map emit).foldl keepFirst firstError

theorem fireFromSpec (fuel : Nat) {m : Manager τ} {L : List τ} (armed : Armed m L) (emit : Nat → Status)
    (enough : (L.filter (due m)).length < fuel) (fired : List τ) (firstError : Status) :
    ∃ m' L' fired', fireFrom emit fuel m fired firstError =
      some (m', fired ++ fired', errorAfter emit fired.length fired'.length firstError) ∧ FireRun m L fired' m' L' := by
  induction fuel generalizing m L fired firstError with
  | zero => omega
  | succ fuel ih =>
    have leftmost := armed.valid.leftmost
    cases first : L.head? with
    | none =>
      refine ⟨m, L, [], ?_, .done (by simp [first])⟩
      simp [fireFrom, leftmost, first, errorAfter]
    | some t =>
      rw [first] at leftmost
      by_cases isDue : due m t
      · obtain ⟨mid, m1, L1, disarmed, reloaded, round⟩ := fireRoundSpec armed first isDue
        have keeps := round.keeps armed
        have fewer := congrArg List.length keeps.dueLeft
        rw [List.length_cons] at fewer
        obtain ⟨m', L', fired', ran, rest⟩ :=
          ih keeps.armed (by omega) (fired ++ [t]) (keepFirst firstError (emit fired.length))
        refine ⟨m', L', t :: fired', ?_, .round round rest⟩
        rw [List.append_assoc, List.length_append] at ran
        simp [fireFrom, leftmost, not_lt.mpr isDue, disarmed, reloaded]
        exact ran
      · refine ⟨m, L, [], ?_, .done fun x same => ?_⟩
        · simp [fireFrom, leftmost, not_le.mp isDue, errorAfter]
        · cases first.symm.trans same
          exact isDue

theorem fireExpiredSpec {m : Manager τ} {L : List τ} (armed : Armed m L) (reading : Nat) (emit : Nat → Status) :
    ∃ m' L' fired, fireExpired m (.ok reading) emit = some (m', fired, errorAfter emit 0 fired.length .ok) ∧
      FireRun (refreshNow m (.ok reading)).1 L fired m' L' := by
  have linked := armed.valid.linked
  have bound := List.length_filter_le (due (refreshNow m (.ok reading)).1) L
  exact fireFromSpec (m.tree.linked + 1) (armed.refresh (.ok reading)) emit (by omega) [] .ok

theorem FireRun.keeps {m m' : Manager τ} {L L' fired : List τ} (run : FireRun m L fired m' L') (armed : Armed m L) :
    Armed m' L' ∧ m'.now = m.now ∧ m'.clock = m.clock ∧ ∀ t, L'.head? = some t → ¬ due m' t := by
  induction run with
  | done nothing => exact ⟨armed, rfl, rfl, nothing⟩
  | round first rest ih =>
    have keeps := first.keeps armed
    obtain ⟨armed', now, clock, nothing⟩ := ih keeps.armed
    exact ⟨armed', now.trans keeps.now, clock.trans keeps.clock, nothing⟩

end Fire

end Nanosig.TimerMgr
