import Nanosig.TimerMgr.BoundedSleep

/-! Timers under a clock that answers anything: they stay linked, in whatever order. -/
namespace Nanosig.TimerMgr
open TransitionSystem

variable {τ : Type} [DecidableEq τ]

/- A timer is set while it does not run; nothing is asked of the readings. -/
def AnyClock (s : State τ) : Action τ → Prop
  | .init t _ _ _ => ¬Running s.manager t
  | .setInterval t _ => ¬Running s.manager t
  | .setAttr t _ => ¬Running s.manager t
  | .start _ clock => Threads.Answers s.manager clock
  | .restart _ clock => Threads.Answers s.manager clock
  | .fireExpired clock _ => Threads.Answers s.manager clock
  | .nextTimeout clock => Threads.Answers s.manager clock
  | .cancel _ => True
  | .deinit _ _ => True

instance (s : State τ) (a : Action τ) : Decidable (AnyClock s a) :=
  match a with
  | .init t _ _ _ | .setInterval t _ | .setAttr t _ => inferInstanceAs (Decidable ¬Running s.manager t)
  | .start _ clock | .restart _ clock | .fireExpired clock _ | .nextTimeout clock =>
      inferInstanceAs (Decidable (Threads.Answers s.manager clock))
  | .cancel _ | .deinit _ _ => isTrue trivial

theorem anyClockOfAllowed {s : State τ} {a : Action τ} (allowed : Allowed s a) : AnyClock s a := by
  cases a with
  | init t intervalUs attr mutex => exact allowed
  | setInterval t intervalUs => exact allowed
  | setAttr t attr => exact allowed
  | start t clock => exact allowed.fails
  | restart t clock => exact allowed.fails
  | fireExpired clock emit => exact allowed.fails
  | nextTimeout clock => exact allowed.fails
  | cancel t => trivial
  | deinit t mutex => trivial

variable {m : Manager τ} {L : List τ}

theorem writeLinked (linked : Linked m L) {t : τ} (fresh : t ∉ L) (value : Timer)
    (created : value.mutexInitialized = true → (m.timers t).mutexInitialized = true) : Linked (setTimer m t value) L :=
  linked.setting fresh value m.tree rfl rfl rfl (fun _ _ => .refl _ _) fun isCreated => linked.stopped t (created isCreated) fresh

theorem nodeInitLinked (linked : Linked m L) {t : τ} (fresh : t ∉ L) (value : Timer) :
    Linked { setTimer m t value with tree := { m.tree with toHeap := Rbtree.nodeInit m.tree.toHeap t } } L :=
  linked.setting fresh value { m.tree with toHeap := Rbtree.nodeInit m.tree.toHeap t } rfl rfl rfl
    (fun _ away => (Rbtree.nodeInitSame away).mpr (.refl _ _)) fun _ => Rbtree.nodeInitEmpty _ _

theorem initLinked (linked : Linked m L) {t : τ} (fresh : t ∉ L) (intervalUs : Nat) (attr : BitVec 32) (mutex : Status) :
    Linked (init m t intervalUs attr mutex).1 L := by
  unfold init
  split
  · exact linked
  · split
    · exact linked
    · split
      · exact writeLinked linked fresh _ fun created => by cases created
      · exact nodeInitLinked linked fresh _

theorem startLinked (linked : Linked m L) (t : τ) (clock : ClockRead) :
    ∃ ended L', start m t clock = some ended ∧ Linked ended.1 L' := by
  obtain ⟨m', rc, notified, L', ran, settled⟩ := Threads.startSettles linked t clock
  exact ⟨_, L', ran, settled.linked⟩

theorem cancelLinked (linked : Linked m L) (t : τ) : ∃ ended L', cancel m t = some ended ∧ Linked ended.1 L' := by
  obtain ⟨m', rc, notified, L', ran, settled, -⟩ := Threads.cancelSettles linked t
  exact ⟨_, L', ran, settled.linked⟩

theorem restartLinked (linked : Linked m L) (t : τ) (clock : ClockRead) :
    ∃ ended L', restart m t clock = some ended ∧ Linked ended.1 L' := by
  obtain ⟨m', rc, notified, L', ran, settled⟩ := Threads.restartSettles linked t clock
  exact ⟨_, L', ran, settled.linked⟩

theorem deinitLinked (linked : Linked m L) (t : τ) (mutex : Status) :
    ∃ ended L', deinit m t mutex = some ended ∧ Linked ended.1 L' := by
  obtain ⟨m1, rc, notified, L', cancelled, settled, stops⟩ := Threads.cancelSettles linked t
  refine ⟨_, L', by rw [deinit, cancelled, Option.map_some], ?_⟩
  by_cases ok : rc = .ok
  · simp only [ok, ne_eq, not_true_eq_false, if_false]
    exact nodeInitLinked settled.linked (stops ok) _
  · simp only [ne_eq, ok, not_false_eq_true, if_true]
    exact settled.linked

theorem stepLinked {s s' : State τ} (linked : Linked s.manager L) {a : Action τ} {answer : Answer τ} (allowed : AnyClock s a)
    (taken : step s a = some (s', answer)) : ∃ L', Linked s'.manager L' := by
  have stopped {t : τ} (notRunning : ¬Running s.manager t) : t ∉ L := fun member =>
    notRunning ⟨linked.created t member, linked.toArmed.running member⟩
  -- A call hands its manager on to the state.
  have settles {t : τ} {links : Bool} {call : Option (Manager τ × Status × Bool)}
      (ends : ∃ ended L', call = some ended ∧ Linked ended.1 L')
      (taken : call.map (settle s t links) = some (s', answer)) : ∃ L', Linked s'.manager L' := by
    obtain ⟨ended, L', ran, linked'⟩ := ends
    rw [ran] at taken
    cases taken
    exact ⟨L', linked'⟩
  cases a with
  | init t intervalUs attr mutex =>
    cases taken
    exact ⟨L, initLinked linked (stopped allowed) intervalUs attr mutex⟩
  | setInterval t intervalUs =>
    cases taken
    exact ⟨L, writeLinked linked (stopped allowed) { s.manager.timers t with intervalUs := intervalUs } id⟩
  | setAttr t attr =>
    cases taken
    exact ⟨L, writeLinked linked (stopped allowed) { s.manager.timers t with attr := attr } id⟩
  | start t clock => exact settles (startLinked linked t clock) taken
  | cancel t => exact settles (cancelLinked linked t) taken
  | restart t clock => exact settles (restartLinked linked t clock) taken
  | deinit t mutex => exact settles (deinitLinked linked t mutex) taken
  | fireExpired clock emit =>
    obtain ⟨ended, ran, same⟩ := Option.map_eq_some_iff.mp taken
    cases same
    obtain ⟨L', linked', -⟩ := Threads.fireSettles linked allowed ran
    exact ⟨L', linked'⟩
  | nextTimeout clock =>
    cases taken
    exact ⟨L, Threads.nextTimeoutLinked linked clock⟩

theorem reachableLinked {s : State τ} (reach : Reachable Starts step AnyClock s) : ∃ L, Linked s.manager L :=
  reach.invariant (I := fun s => ∃ L, Linked s.manager L) (fun _ starts => ⟨[], (startsScheduled starts).ordered.linked⟩)
    fun _ _ _ _ held allowed taken => held.elim fun _ linked => stepLinked linked allowed taken

end Nanosig.TimerMgr
