import Nanosig.TimerMgr.Calls

/-! What one call of `ns_timer_mgr_fire_expired` does as a whole: the timers due at
its reading fire, in the order of the tree, and the others stay as they are. -/
namespace Nanosig.TimerMgr

variable {τ : Type} [DecidableEq τ]

def repeats (timer : Timer) : Bool := timer.attr &&& attrRepeat ≠ 0

def firedTimer (m : Manager τ) (t : τ) : Timer :=
  if repeats (m.timers t) then { m.timers t with expireUs := reloadExpire m t (m.timers t).expireUs } else m.timers t

omit [DecidableEq τ] in
theorem firedAttr (m : Manager τ) (t : τ) : (firedTimer m t).attr = (m.timers t).attr := by
  unfold firedTimer
  split <;> rfl

theorem repeatsIff (timer : Timer) : repeats timer = true ↔ timer.attr &&& attrRepeat ≠ 0 := by
  unfold repeats
  exact decide_eq_true_iff

theorem FireRound.timers {m m' : Manager τ} {L L' : List τ} {t : τ} (round : FireRound m L t m' L') :
    m'.timers = Function.update m.timers t (firedTimer m t) := by
  cases round with
  | oneshot first isDue once disarms =>
    rw [firedTimer, if_neg (mt (repeatsIff _).mp (not_not.mpr once)), disarms.timers, Function.update_eq_self]
  | reload first isDue repeating disarms arms =>
    rw [firedTimer, if_pos ((repeatsIff _).mpr repeating), arms.timers, disarms.timers]

theorem FireRound.member {m m' : Manager τ} {L L' : List τ} {t : τ} (round : FireRound m L t m' L') (distinct : L.Nodup)
    (x : τ) : x ∈ L' ↔ x ∈ L ∧ (x = t → repeats (m.timers x) = true) := by
  cases round with
  | oneshot first isDue once disarms =>
    rw [distinct.mem_erase_iff]
    by_cases here : x = t
    · subst here
      simp [mt (repeatsIff _).mp (not_not.mpr once)]
    · simp [here]
  | @reload _ _ earlier later first isDue repeating disarms arms =>
    have member := (headErase first).2.1
    have rest : x ∈ earlier ++ later ↔ x ≠ t ∧ x ∈ L := by rw [← arms.split, distinct.mem_erase_iff]
    by_cases here : x = t
    · subst here
      simp [member, (repeatsIff _).mpr repeating]
    · simp only [List.mem_append, List.mem_cons, here, false_or] at rest ⊢
      simpa [here] using rest

structure Fired (m : Manager τ) (L ages : List τ) (m' : Manager τ) (L' fired : List τ) : Prop where
  scheduled : Scheduled m' L' (fired.foldl (refile m) ages)
  now : m'.now = m.now
  clock : m'.clock = m.clock
  emitted : fired = L.filter (due m)
  timers : ∀ x, m'.timers x = if x ∈ fired then firedTimer m x else m.timers x
  member : ∀ x, x ∈ L' ↔ x ∈ L ∧ (x ∈ fired → repeats (m.timers x) = true)

theorem refileCongr {m m' : Manager τ} (same : ∀ x, (m'.timers x).attr = (m.timers x).attr) : refile m' = refile m := by
  funext ages t
  rw [refile, refile, same t]

omit [DecidableEq τ] in
theorem reloadCongr {m m' : Manager τ} {x : τ} (timer : m'.timers x = m.timers x) (now : m'.now = m.now) :
    firedTimer m' x = firedTimer m x := by
  simp only [firedTimer, reloadExpire, expireFromNow, timer, now]

theorem FireRun.outcome {m m' : Manager τ} {L L' ages fired : List τ} (scheduled : Scheduled m L ages)
    (run : FireRun m L fired m' L') : Fired m L ages m' L' fired := by
  induction run generalizing ages with
  | @done m L nothing =>
    refine ⟨scheduled, rfl, rfl, ?_, fun x => by simp, fun x => by simp⟩
    symm
    refine List.filter_eq_nil_iff.mpr fun x member isDue => ?_
    cases order : L with
    | nil => simp [order] at member
    | cons first rest =>
      refine nothing first (by simp [order]) ?_
      have sorted := scheduled.ordered.sorted
      rw [order] at sorted member
      rcases List.mem_cons.mp member with rfl | later
      · exact of_decide_eq_true isDue
      · exact ((List.pairwise_cons.mp sorted).1 x later).trans (of_decide_eq_true isDue)
  | @round m m1 m' L L1 L' fired t first rest ih =>
    have ordered := scheduled.ordered
    have keeps := first.keeps ordered.toArmed
    have timers1 := first.timers
    have after := ih ⟨ordered.fireRound first, scheduled.aged.fireRound ordered first⟩
    have attrs (x : τ) : (m1.timers x).attr = (m.timers x).attr := by
      rw [timers1]
      by_cases here : x = t
      · subst here
        simp [firedAttr]
      · simp [here]
    have dueLeft := keeps.dueLeft
    have once : t ∉ fired := by
      rw [after.emitted]
      have distinct := ordered.valid.nodup.filter (due m)
      rw [dueLeft] at distinct
      exact (List.nodup_cons.mp distinct).1
    refine ⟨?_, after.now.trans keeps.now, after.clock.trans keeps.clock, ?_, fun x => ?_, fun x => ?_⟩
    · rw [List.foldl_cons, ← refileCongr attrs]
      have same : refile m1 ages t = refile m ages t := by rw [refileCongr attrs]
      rw [same]
      exact after.scheduled
    · rw [dueLeft, after.emitted]
    · rw [after.timers x]
      by_cases here : x = t
      · subst here
        simp [once, timers1]
      · have other : m1.timers x = m.timers x := keeps.others x here
        simp only [List.mem_cons, here, false_or, other, reloadCongr other keeps.now]
    · rw [after.member x, first.member ordered.valid.nodup x]
      have same : repeats (m1.timers x) = repeats (m.timers x) := by rw [repeats, repeats, attrs x]
      simp only [same, List.mem_cons]
      tauto

end Nanosig.TimerMgr
