import Nanosig.TimerMgr.Armed

/-! The order of the tree while the clock advances: the comparator reads a moving
`now`, but all linked timers lose remaining time together, so the order the tree
was built with stays the order by remaining time. -/
namespace Nanosig.TimerMgr

variable {τ : Type} [DecidableEq τ]

/- Exactly the created timers outside the list have an empty node; no reading of the
clock can break this. -/
structure Linked (m : Manager τ) (L : List τ) : Prop extends Armed m L where
  created : ∀ t ∈ L, (m.timers t).mutexInitialized = true
  stopped : ∀ t, (m.timers t).mutexInitialized = true → t ∉ L → Rbtree.nodeIsEmpty m.tree.toHeap t = true

/- The linked timers are sorted by remaining time, none is overdue by `2^63` or
more, and exactly the created timers outside the list have an empty node. -/
structure Ordered (m : Manager τ) (L : List τ) : Prop extends Armed m L where
  wrapped : m.now = m.clock % uint64Modulus
  sorted : L.Pairwise fun a b => remaining m a ≤ remaining m b
  within : ∀ t ∈ L, -(2 ^ 63 : Int) < remaining m t
  created : ∀ t ∈ L, (m.timers t).mutexInitialized = true
  stopped : ∀ t, (m.timers t).mutexInitialized = true → t ∉ L → Rbtree.nodeIsEmpty m.tree.toHeap t = true

theorem Ordered.linked {m : Manager τ} {L : List τ} (ordered : Ordered m L) : Linked m L :=
  ⟨ordered.toArmed, ordered.created, ordered.stopped⟩

/- The deadline as a point of the unwrapped time. -/
def deadline (m : Manager τ) (t : τ) : Int := m.clock + remaining m t

theorem Ordered.remainingAt {m : Manager τ} {L : List τ} (ordered : Ordered m L) {t : τ} {reading : Nat}
    (order : m.clock ≤ reading) (within : (reading : Int) < deadline m t + 2 ^ 63) :
    remainingUs (m.timers t).expireUs (reading % uint64Modulus) = deadline m t - reading := by
  unfold deadline remaining at *
  rw [ordered.wrapped] at within ⊢
  rw [remainingAdvance order within]
  omega

theorem Ordered.refresh {m : Manager τ} {L : List τ} (ordered : Ordered m L) {reading : Nat} (order : m.clock ≤ reading)
    (within : ∀ t ∈ L, (reading : Int) < deadline m t + 2 ^ 63) : Ordered (refreshNow m (.ok reading)).1 L := by
  have moved (t : τ) (member : t ∈ L) :
      remaining (refreshNow m (.ok reading)).1 t = deadline m t - reading := ordered.remainingAt order (within t member)
  refine { ordered.toArmed.refresh (.ok reading) with
    wrapped := rfl
    sorted := ?_
    within := fun t member => ?_
    created := ordered.created
    stopped := ordered.stopped }
  · refine ordered.sorted.imp_of_mem fun {a b} memberA memberB less => ?_
    rw [moved a memberA, moved b memberB, deadline, deadline]
    omega
  · have bound := within t member
    rw [moved t member]
    omega

omit [DecidableEq τ] in
theorem cmpNegative {m : Manager τ} {a b : τ} : cmp m a b < 0 ↔ remaining m a < remaining m b := by
  unfold cmp remaining
  dsimp only
  split
  · simp [*]
  · split <;> simp [*]

theorem emptyOfSame {h h' : LinkedTree.Heap τ} {t : τ} (same : LinkedTree.SameAt h h' t) :
    Rbtree.nodeIsEmpty h' t = Rbtree.nodeIsEmpty h t := by
  simp [Rbtree.nodeIsEmpty, same.parent, same.color]

theorem armsKept {m m' : Manager τ} {L earlier later : List τ} {t x : τ} {expireUs : Nat}
    (arms : Arms m L t expireUs m' earlier later) (fresh : t ∉ L) (member : x ∈ L) :
    m'.timers x = m.timers x ∧ remaining m' x = remaining m x := by
  have other : m'.timers x = m.timers x := by
    rw [arms.timers, Function.update_of_ne fun e : x = t => fresh (e ▸ member)]
  exact ⟨other, by rw [remaining, remaining, other, arms.now]⟩

theorem Linked.arms {m m' : Manager τ} {L earlier later : List τ} {t : τ} {expireUs : Nat} (linked : Linked m L)
    (arms : Arms m L t expireUs m' earlier later) (fresh : t ∉ L) (created : (m.timers t).mutexInitialized = true) :
    Linked m' (earlier ++ t :: later) := by
  have member (x : τ) : x ∈ earlier ++ t :: later ↔ x = t ∨ x ∈ L := by
    rw [arms.split]
    simp only [List.mem_append, List.mem_cons]
    tauto
  refine { arms.armed with created := fun x inside => ?_, stopped := fun x createdX outside => ?_ }
  · rcases (member x).mp inside with rfl | inside
    · rw [arms.timers, Function.update_self]
      exact created
    · rw [(armsKept arms fresh inside).1]
      exact linked.created x inside
  · rw [member, not_or] at outside
    rw [arms.timers, Function.update_of_ne outside.1] at createdX
    rw [emptyOfSame (arms.same x outside.1 outside.2)]
    exact linked.stopped x createdX outside.2

theorem Linked.disarms {m m' : Manager τ} {L : List τ} {t : τ} (linked : Linked m L) (disarms : Disarms m L t m') :
    Linked m' (L.erase t) := by
  refine { disarms.armed with created := fun x inside => ?_, stopped := fun x created outside => ?_ }
  · rw [disarms.timers]
    exact linked.created x (List.mem_of_mem_erase inside)
  · rw [disarms.timers] at created
    by_cases here : x = t
    · rw [here]
      exact disarms.stopped
    · have outsideL : x ∉ L := fun inside => outside ((List.mem_erase_of_ne here).mpr inside)
      rw [emptyOfSame (disarms.same x outsideL)]
      exact linked.stopped x created outsideL

theorem Linked.setting {m : Manager τ} {L : List τ} (linked : Linked m L) {t : τ} (fresh : t ∉ L) (value : Timer)
    (tree : Rbtree.Root τ) (root : tree.root = m.tree.root) (leftmost : tree.rbLeftmost = m.tree.rbLeftmost)
    (count : tree.linked = m.tree.linked) (same : ∀ y, y ≠ t → LinkedTree.SameAt m.tree.toHeap tree.toHeap y)
    (stopped : value.mutexInitialized = true → Rbtree.nodeIsEmpty tree.toHeap t = true) :
    Linked { setTimer m t value with tree := tree } L := by
  have apart (x : τ) (member : x ∈ L) : x ≠ t := fun e => fresh (e ▸ member)
  have others (x : τ) (away : x ≠ t) : (setTimer m t value).timers x = m.timers x := by simp [setTimer, away]
  refine ⟨⟨?_, linked.now, fun x member => ?_⟩, fun x member => ?_, fun x created outside => ?_⟩
  · exact linked.valid.congr root leftmost count fun k member => same k (apart k member)
  · change 0 < ((setTimer m t value).timers x).intervalUs ∧ ((setTimer m t value).timers x).intervalUs ≤ int64Max
    rw [others x (apart x member)]
    exact linked.interval x member
  · change ((setTimer m t value).timers x).mutexInitialized = true
    rw [others x (apart x member)]
    exact linked.created x member
  · by_cases here : x = t
    · subst here
      exact stopped (by simpa [setTimer] using created)
    · rw [emptyOfSame (same x here)]
      exact linked.stopped x (by rw [← others x here]; exact created) outside

theorem Linked.refresh {m : Manager τ} {L : List τ} (linked : Linked m L) (clock : ClockRead) :
    Linked (refreshNow m clock).1 L := by
  refine { linked.toArmed.refresh clock with created := ?_, stopped := ?_ } <;> cases clock
  · exact linked.created
  · exact linked.created
  · exact linked.stopped
  · exact linked.stopped

theorem Linked.runningIff {m : Manager τ} {L : List τ} (linked : Linked m L) {t : τ}
    (created : (m.timers t).mutexInitialized = true) : isRunning m t = true ↔ t ∈ L := by
  constructor
  · intro running
    by_contra outside
    simp [isRunning, linked.stopped t created outside] at running
  · exact linked.toArmed.running

theorem Linked.fireRound {m m' : Manager τ} {L L' : List τ} {t : τ} (linked : Linked m L) (round : FireRound m L t m' L') :
    Linked m' L' ∧ L' ⊆ L := by
  cases round with
  | oneshot first isDue once disarms => exact ⟨linked.disarms disarms, List.erase_subset⟩
  | reload first isDue repeats disarms arms =>
    have member := (headErase first).2.1
    refine ⟨(linked.disarms disarms).arms arms (fun inside => (linked.valid.nodup.mem_erase_iff.mp inside).1 rfl) ?_, ?_⟩
    · rw [disarms.timers]
      exact linked.created t member
    · intro x inside
      have rest : x = t ∨ x ∈ L.erase t := by
        rw [arms.split]
        simp only [List.mem_append, List.mem_cons] at inside ⊢
        tauto
      rcases rest with rfl | rest
      · exact member
      · exact List.mem_of_mem_erase rest

theorem Ordered.armPlace {m m' : Manager τ} {L earlier later : List τ} {t : τ} {expireUs : Nat} (ordered : Ordered m L)
    (arms : Arms m L t expireUs m' earlier later) (fresh : t ∉ L) :
    (∀ x ∈ earlier, remaining m' x ≤ remaining m' t) ∧ ∀ x ∈ later, remaining m' t < remaining m' x := by
  have sorted : L.Pairwise fun a b => remaining m' a ≤ remaining m' b :=
    ordered.sorted.imp_of_mem fun {a b} memberA memberB less => by
      rwa [(armsKept arms fresh memberA).2, (armsKept arms fresh memberB).2]
  have monotone : Rbtree.Monotone (cmp m') t L := sorted.imp fun less before => by
    rw [cmpNegative] at before ⊢
    omega
  obtain ⟨notLess, less⟩ := arms.place monotone
  exact ⟨fun x inside => not_lt.mp fun before => notLess x inside (cmpNegative.mpr before),
    fun x inside => cmpNegative.mp (less x inside)⟩

theorem Ordered.arms {m m' : Manager τ} {L earlier later : List τ} {t : τ} {expireUs : Nat} (ordered : Ordered m L)
    (arms : Arms m L t expireUs m' earlier later) (fresh : t ∉ L) (created : (m.timers t).mutexInitialized = true)
    (within : -(2 ^ 63 : Int) < remainingUs expireUs m.now) : Ordered m' (earlier ++ t :: later) := by
  obtain ⟨notLess, less⟩ := ordered.armPlace arms fresh
  have kept (x : τ) (member : x ∈ L) : remaining m' x = remaining m x := (armsKept arms fresh member).2
  have sorted : L.Pairwise fun a b => remaining m' a ≤ remaining m' b :=
    ordered.sorted.imp_of_mem fun {a b} memberA memberB order => by rwa [kept a memberA, kept b memberB]
  have member (x : τ) : x ∈ earlier ++ t :: later ↔ x = t ∨ x ∈ L := by
    rw [arms.split]
    simp only [List.mem_append, List.mem_cons]
    tauto
  refine { ordered.linked.arms arms fresh created with
    wrapped := by rw [arms.now, arms.clock, ordered.wrapped]
    sorted := ?_
    within := fun x inside => ?_ }
  · rw [arms.split] at sorted
    obtain ⟨sortedEarlier, sortedLater, across⟩ := List.pairwise_append.mp sorted
    refine List.pairwise_append.mpr ⟨sortedEarlier, List.pairwise_cons.mpr ⟨fun x inside => ?_, sortedLater⟩, fun x left y right => ?_⟩
    · exact (less x inside).le
    · rcases List.mem_cons.mp right with rfl | right
      · exact notLess x left
      · exact across x left y right
  · rcases (member x).mp inside with rfl | inside
    · rw [remaining, arms.timers, arms.now, Function.update_self]
      exact within
    · rw [kept x inside]
      exact ordered.within x inside

theorem Ordered.disarms {m m' : Manager τ} {L : List τ} {t : τ} (ordered : Ordered m L) (disarms : Disarms m L t m') :
    Ordered m' (L.erase t) := by
  have kept (x : τ) : remaining m' x = remaining m x := by rw [remaining, remaining, disarms.timers, disarms.now]
  refine { ordered.linked.disarms disarms with
    wrapped := by rw [disarms.now, disarms.clock, ordered.wrapped]
    sorted := ?_
    within := fun x inside => ?_ }
  · refine (ordered.sorted.sublist List.erase_sublist).imp fun {a b} less => ?_
    rwa [kept, kept]
  · rw [kept]
    exact ordered.within x (List.mem_of_mem_erase inside)

theorem Ordered.fireRound {m m' : Manager τ} {L L' : List τ} {t : τ} (ordered : Ordered m L)
    (round : FireRound m L t m' L') : Ordered m' L' := by
  cases round with
  | oneshot first isDue once disarms => exact ordered.disarms disarms
  | reload first isDue repeats disarms arms =>
    have member := (headErase first).2.1
    have ahead := reloadAhead ordered.now (ordered.interval t member) (m.timers t).expireUs
    refine (ordered.disarms disarms).arms arms (fun inside => ?_) ?_ ?_
    · exact (ordered.valid.nodup.mem_erase_iff.mp inside).1 rfl
    · rw [disarms.timers]
      exact ordered.created t member
    · rw [disarms.now]
      omega

section Ages

/- The linked timers in the order they were linked in; timers of equal deadline stay in it. -/
structure Aged (m : Manager τ) (L ages : List τ) : Prop where
  perm : L.Perm ages
  stable : L.Pairwise fun a b => remaining m a = remaining m b → [a, b].Sublist ages

theorem Aged.disarms {m m' : Manager τ} {L ages : List τ} {t : τ} (aged : Aged m L ages) (distinct : L.Nodup)
    (disarms : Disarms m L t m') : Aged m' (L.erase t) (ages.erase t) := by
  have kept (x : τ) : remaining m' x = remaining m x := by rw [remaining, remaining, disarms.timers, disarms.now]
  refine ⟨aged.perm.erase t, (aged.stable.sublist List.erase_sublist).imp_of_mem fun {a b} memberA memberB older same => ?_⟩
  rw [kept, kept] at same
  have apartA := (distinct.mem_erase_iff.mp memberA).1
  have apartB := (distinct.mem_erase_iff.mp memberB).1
  have outside : t ∉ [a, b] := by simp [apartA.symm, apartB.symm]
  have erased := (older same).erase t
  rwa [List.erase_of_not_mem outside] at erased

theorem Aged.arms {m m' : Manager τ} {L ages earlier later : List τ} {t : τ} {expireUs : Nat} (aged : Aged m L ages)
    (arms : Arms m L t expireUs m' earlier later) (fresh : t ∉ L)
    (less : ∀ x ∈ later, remaining m' t < remaining m' x) : Aged m' (earlier ++ t :: later) (ages ++ [t]) := by
  have perm : (earlier ++ t :: later).Perm (ages ++ [t]) := by
    refine List.perm_middle.trans ?_
    rw [← arms.split]
    exact (aged.perm.cons t).trans (List.perm_append_singleton t ages).symm
  refine ⟨perm, ?_⟩
  have stable : L.Pairwise fun a b => remaining m' a = remaining m' b → [a, b].Sublist (ages ++ [t]) :=
    aged.stable.imp_of_mem fun {a b} memberA memberB older same => by
      rw [(armsKept arms fresh memberA).2, (armsKept arms fresh memberB).2] at same
      exact (older same).trans (List.sublist_append_left _ _)
  rw [arms.split] at stable
  obtain ⟨stableEarlier, stableLater, across⟩ := List.pairwise_append.mp stable
  refine List.pairwise_append.mpr ⟨stableEarlier, List.pairwise_cons.mpr ⟨fun x inside same => ?_, stableLater⟩, fun x left y right => ?_⟩
  · have := less x inside
    omega
  · rcases List.mem_cons.mp right with rfl | right
    · intro _
      have member : x ∈ ages := aged.perm.mem_iff.mp (by rw [arms.split]; exact List.mem_append_left _ left)
      exact (List.singleton_sublist.mpr member).append (List.Sublist.refl [y])
    · exact across x left y right

def refile (m : Manager τ) (ages : List τ) (t : τ) : List τ :=
  if (m.timers t).attr &&& attrRepeat ≠ 0 then ages.erase t ++ [t] else ages.erase t

theorem Aged.refresh {m : Manager τ} {L ages : List τ} (aged : Aged m L ages) (ordered : Ordered m L) {reading : Nat}
    (order : m.clock ≤ reading) (within : ∀ t ∈ L, (reading : Int) < deadline m t + 2 ^ 63) :
    Aged (refreshNow m (.ok reading)).1 L ages := by
  have moved (t : τ) (member : t ∈ L) :
      remaining (refreshNow m (.ok reading)).1 t = deadline m t - reading := ordered.remainingAt order (within t member)
  refine ⟨aged.perm, aged.stable.imp_of_mem fun {a b} memberA memberB older same => older ?_⟩
  rw [moved a memberA, moved b memberB, deadline, deadline] at same
  omega

theorem Aged.fireRound {m m' : Manager τ} {L L' ages : List τ} {t : τ} (aged : Aged m L ages) (ordered : Ordered m L)
    (round : FireRound m L t m' L') : Aged m' L' (refile m ages t) := by
  cases round with
  | oneshot first isDue once disarms =>
    rw [refile, if_neg (not_not.mpr once)]
    exact aged.disarms ordered.valid.nodup disarms
  | reload first isDue repeats disarms arms =>
    rw [refile, if_pos repeats]
    have fresh : t ∉ L.erase t := fun inside => (ordered.valid.nodup.mem_erase_iff.mp inside).1 rfl
    have place := (ordered.disarms disarms).armPlace arms fresh
    exact (aged.disarms ordered.valid.nodup disarms).arms arms fresh place.2

end Ages

theorem Ordered.runningIff {m : Manager τ} {L : List τ} (ordered : Ordered m L) {t : τ}
    (created : (m.timers t).mutexInitialized = true) : isRunning m t = true ↔ t ∈ L := ordered.linked.runningIff created

end Nanosig.TimerMgr
