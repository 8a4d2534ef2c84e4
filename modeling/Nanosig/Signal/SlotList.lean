import Nanosig.Signal.Signal

/-! The slot lists: what connects and disconnects do to them. -/
namespace Nanosig.Signal

open CircularList MpscRecordRing TransitionSystem

theorem popAllSpec {α : Type} [DecidableEq α] {links : Links α} {head : α} {xs : List α} (list : Circular links head xs)
    {fuel : Nat} (enough : xs.length < fuel) :
    ∃ links', popAll links head fuel = some links' ∧ Circular links' head [] ∧ (∀ x ∈ xs, Circular links' x []) ∧
      ∀ a, a ∉ head :: xs → links'.next a = links.next a ∧ links'.prev a = links.prev a := by
  induction xs generalizing links fuel with
  | nil =>
    obtain ⟨more, rfl⟩ : ∃ more, fuel = more + 1 := ⟨fuel - 1, by simp at enough; omega⟩
    exact ⟨links, by simp [popAll, (emptyIff list).mpr rfl], list, by simp, fun _ _ => ⟨rfl, rfl⟩⟩
  | cons node ys ih =>
    obtain ⟨more, rfl⟩ : ∃ more, fuel = more + 1 := ⟨fuel - 1, by simp at enough; omega⟩
    obtain ⟨popped, made, rest, frame⟩ := popFrontSpec list
    have full : links.empty head = false := by
      simpa using (emptyIff list).not.mpr (List.cons_ne_nil node ys)
    obtain ⟨headOut, tail⟩ := List.nodup_cons.mp list.distinct
    obtain ⟨nodeOut, -⟩ := List.nodup_cons.mp tail
    have headNode : head ≠ node := fun same => headOut (by simp [same])
    have outside : node ∉ head :: ys := by simp [headNode.symm, nodeOut]
    have next : Circular (popped.init node) head ys := rest.congr fun a member => by
      have differs : a ≠ node := fun same => outside (same ▸ member)
      simp [Links.init, Links.setNext, Links.setPrev, differs]
    obtain ⟨links', ran, ended, alone, kept⟩ := ih next (by simpa using enough)
    have nodeAlone : Circular links' node [] := (initNil popped node).congr fun a member => by
      obtain rfl := List.mem_singleton.mp member
      exact kept a outside
    refine ⟨links', by simpa [popAll, full, made] using ran, ended, ?_, fun a other => ?_⟩
    · intro x member
      rcases List.mem_cons.mp member with rfl | later
      · exact nodeAlone
      · exact alone x later
    · obtain ⟨aHead, aNode, aYs⟩ : a ≠ head ∧ a ≠ node ∧ a ∉ ys := by simpa using other
      obtain ⟨sameNext, samePrev⟩ := kept a (by simp [aHead, aYs])
      obtain ⟨firstNext, firstPrev⟩ := frame a other
      simp [sameNext, samePrev, Links.init, Links.setNext, Links.setPrev, aNode, firstNext, firstPrev]

section Lists

variable {abi : Abi} {σ κ ℓ : Type} [DecidableEq σ] [DecidableEq κ] [DecidableEq ℓ] {s s' : State abi σ κ ℓ}

structure Lists (s : State abi σ κ ℓ) : Prop where
  lists : ∀ g, Circular s.links (.inl g) ((s.connected g).map .inr)
  own : ∀ g, ∀ c ∈ s.connected g, ∃ conn, s.connections c = some conn ∧ conn.signal = g
  alone : ∀ c conn, s.connections c = some conn → c ∉ s.connected conn.signal → Circular s.links (.inr c) []

omit [DecidableEq σ] [DecidableEq κ] [DecidableEq ℓ] in
theorem Lists.oneSignal (lists : Lists s) {g h : σ} {c : κ} (first : c ∈ s.connected g) (second : c ∈ s.connected h) : g = h := by
  obtain ⟨conn, given, rfl⟩ := lists.own g c first
  obtain ⟨conn', given', rfl⟩ := lists.own h c second
  cases given.symm.trans given'
  rfl

omit [DecidableEq σ] [DecidableEq κ] [DecidableEq ℓ] in
theorem Lists.distinct (lists : Lists s) (g : σ) : (s.connected g).Nodup :=
  List.Nodup.of_map _ (List.nodup_cons.mp (lists.lists g).distinct).2

omit [DecidableEq σ] [DecidableEq κ] [DecidableEq ℓ] in
theorem Lists.elsewhere (lists : Lists s) {g h : σ} (other : h ≠ g) {links' : Links (σ ⊕ κ)} {xs : List κ}
    (frame : ∀ a, a ∉ Sum.inl g :: xs.map Sum.inr → links'.next a = s.links.next a ∧ links'.prev a = s.links.prev a)
    (apart : ∀ c ∈ s.connected h, c ∉ xs) : Circular links' (.inl h) ((s.connected h).map .inr) := by
  refine (lists.lists h).congr fun a member => frame a fun inside => ?_
  rcases List.mem_cons.mp member with rfl | node
  · rcases List.mem_cons.mp inside with same | node
    · exact other (Sum.inl.inj same)
    · obtain ⟨c, -, same⟩ := List.mem_map.mp node
      contradiction
  · obtain ⟨c, here, rfl⟩ := List.mem_map.mp node
    rcases List.mem_cons.mp inside with same | node
    · contradiction
    · obtain ⟨d, there, same⟩ := List.mem_map.mp node
      exact apart c here (Sum.inr.inj same ▸ there)

omit [DecidableEq σ] [DecidableEq κ] [DecidableEq ℓ] in
theorem aloneElsewhere {c : κ} (alone : Circular s.links (.inr c) []) {g : σ} {links' : Links (σ ⊕ κ)} {xs : List κ}
    (frame : ∀ a, a ∉ Sum.inl g :: xs.map Sum.inr → links'.next a = s.links.next a ∧ links'.prev a = s.links.prev a)
    (apart : c ∉ xs) : Circular links' (.inr c) [] := by
  refine alone.congr fun a member => frame a fun inside => ?_
  obtain rfl := List.mem_singleton.mp member
  rcases List.mem_cons.mp inside with same | node
  · contradiction
  · obtain ⟨d, there, same⟩ := List.mem_map.mp node
    exact apart (Sum.inr.inj same ▸ there)

omit [DecidableEq ℓ] in
theorem connectSpec (lists : Lists s) (g : σ) (slot : Slot abi) (target : ℓ) (c : κ)
    (unlinked : ∀ conn ∈ s.connections c, c ∉ s.connected conn.signal) (named : slot.slotFn ≠ 0) :
    ∃ links', connect s g slot target c = some ({ s with
        connections := Function.update s.connections c (some ⟨g, slot, target⟩)
        links := links'
        connected := Function.update s.connected g (s.connected g ++ [c]) }, .ok) ∧
      Lists { s with
        connections := Function.update s.connections c (some ⟨g, slot, target⟩)
        links := links'
        connected := Function.update s.connected g (s.connected g ++ [c]) } := by
  have outside : ∀ h, c ∉ s.connected h := fun h member => by
    obtain ⟨conn, given, rfl⟩ := lists.own h c member
    exact unlinked conn given member
  have initFrame : ∀ a, a ≠ Sum.inr c → (s.links.init (.inr c)).next a = s.links.next a ∧
      (s.links.init (.inr c)).prev a = s.links.prev a := fun a differs => by
    simp [Links.init, Links.setNext, Links.setPrev, differs]
  have list : Circular (s.links.init (.inr c)) (.inl g) ((s.connected g).map .inr) :=
    (lists.lists g).congr fun a member => initFrame a fun same => by
      rw [same] at member
      rcases List.mem_cons.mp member with same | node
      · contradiction
      · obtain ⟨d, there, same⟩ := List.mem_map.mp node
        exact outside g (Sum.inr.inj same ▸ there)
  obtain ⟨links', made, pushed, frame⟩ := pushBackSpec list (by simpa using outside g : Sum.inr c ∉ Sum.inl g :: (s.connected g).map Sum.inr)
  have kept : ∀ a, a ∉ Sum.inl g :: (s.connected g ++ [c]).map Sum.inr →
      links'.next a = s.links.next a ∧ links'.prev a = s.links.prev a := fun a other => by
    have differs : a ≠ Sum.inr c := fun same => other (by simp [same])
    obtain ⟨next, prev⟩ := frame a (by simpa [differs] using other)
    exact ⟨next.trans (initFrame a differs).1, prev.trans (initFrame a differs).2⟩
  refine ⟨links', by simp [connect, named, made], fun h => ?_, fun h d member => ?_, fun d conn given out => ?_⟩
  · show Circular links' (.inl h) ((Function.update s.connected g (s.connected g ++ [c]) h).map .inr)
    by_cases same : h = g
    · subst same
      simpa using pushed
    · rw [Function.update_of_ne same]
      refine lists.elsewhere same kept fun d here there => ?_
      rcases List.mem_append.mp there with inside | last
      · exact same (lists.oneSignal here inside)
      · exact outside h (List.mem_singleton.mp last ▸ here)
  · have member' : d ∈ Function.update s.connected g (s.connected g ++ [c]) h := member
    show ∃ conn, Function.update s.connections c (some ⟨g, slot, target⟩) d = some conn ∧ conn.signal = h
    by_cases mine : d = c
    · subst mine
      by_cases same : h = g
      · exact ⟨_, Function.update_self .., same.symm⟩
      · rw [Function.update_of_ne same] at member'
        exact absurd member' (outside h)
    · rw [Function.update_of_ne mine]
      by_cases same : h = g
      · subst same
        exact lists.own h d (by simpa [mine] using member')
      · rw [Function.update_of_ne same] at member'
        exact lists.own h d member'
  · have given' : Function.update s.connections c (some ⟨g, slot, target⟩) d = some conn := given
    have out' : d ∉ Function.update s.connected g (s.connected g ++ [c]) conn.signal := out
    show Circular links' (.inr d) []
    have mine : d ≠ c := by
      rintro rfl
      rw [Function.update_self] at given'
      cases given'
      simp at out'
    rw [Function.update_of_ne mine] at given'
    have free : d ∉ s.connected conn.signal := fun member => out' (by
      by_cases same : conn.signal = g
      · rw [same] at member ⊢
        simp [member]
      · rwa [Function.update_of_ne same])
    refine aloneElsewhere (lists.alone d conn given' free) kept fun there => ?_
    rcases List.mem_append.mp there with inside | last
    · obtain ⟨conn', given'', signal⟩ := lists.own g d inside
      cases given'.symm.trans given''
      exact free (signal ▸ inside)
    · exact mine (List.mem_singleton.mp last)

omit [DecidableEq ℓ] in
theorem Lists.remove (lists : Lists s) (g : σ) (links' : Links (σ ⊕ κ)) (left : List κ)
    (list : Circular links' (.inl g) (left.map .inr)) (inside : ∀ c ∈ left, c ∈ s.connected g)
    (alone : ∀ c ∈ s.connected g, c ∉ left → Circular links' (.inr c) [])
    (frame : ∀ a, a ∉ Sum.inl g :: (s.connected g).map Sum.inr → links'.next a = s.links.next a ∧ links'.prev a = s.links.prev a) :
    Lists { s with
      links := links'
      connected := Function.update s.connected g left } := by
  refine ⟨fun h => ?_, fun h d member => ?_, fun d conn given out => ?_⟩
  · show Circular links' (.inl h) ((Function.update s.connected g left h).map .inr)
    by_cases same : h = g
    · subst same
      rwa [Function.update_self]
    · rw [Function.update_of_ne same]
      exact lists.elsewhere same frame fun d here there => same (lists.oneSignal here there)
  · have member' : d ∈ Function.update s.connected g left h := member
    by_cases same : h = g
    · subst same
      rw [Function.update_self] at member'
      exact lists.own h d (inside d member')
    · rw [Function.update_of_ne same] at member'
      exact lists.own h d member'
  · have out' : d ∉ Function.update s.connected g left conn.signal := out
    show Circular links' (.inr d) []
    by_cases here : d ∈ s.connected g
    · obtain ⟨conn', given', rfl⟩ := lists.own g d here
      cases given'.symm.trans given
      rw [Function.update_self] at out'
      exact alone d here out'
    · have free : d ∉ s.connected conn.signal := by
        by_cases same : conn.signal = g
        · rwa [same]
        · rwa [Function.update_of_ne same] at out'
      exact aloneElsewhere (lists.alone d conn given free) frame here

omit [DecidableEq ℓ] in
theorem disconnectSpec (lists : Lists s) (c : κ) {conn : Connection abi σ ℓ} (given : s.connections c = some conn) :
    ∃ links', disconnect s c = some ({ s with
        links := links'
        connected := Function.update s.connected conn.signal ((s.connected conn.signal).erase c) }, .ok) ∧
      Lists { s with
        links := links'
        connected := Function.update s.connected conn.signal ((s.connected conn.signal).erase c) } := by
  by_cases member : c ∈ s.connected conn.signal
  · obtain ⟨front, back, split⟩ := List.append_of_mem member
    have distinct := lists.distinct conn.signal
    rw [split] at distinct
    obtain ⟨-, tail, apart⟩ := List.nodup_append.mp distinct
    have frontOut : c ∉ front := fun inside => apart c inside c List.mem_cons_self rfl
    have erased : (s.connected conn.signal).erase c = front ++ back := by
      rw [split, List.erase_append_right _ frontOut]
      simp
    have list := lists.lists conn.signal
    rw [split, List.map_append, List.map_cons] at list
    obtain ⟨links', made, rest, alone, frame⟩ := removeInitSpec list
    refine ⟨links', by simp [disconnect, given, made], ?_⟩
    rw [erased]
    refine lists.remove conn.signal links' (front ++ back) (by simpa using rest) (fun d inside => ?_) (fun d here gone => ?_) ?_
    · rw [split]
      exact (List.mem_append.mp inside).elim (List.mem_append_left _) fun later =>
        List.mem_append_right _ (List.mem_cons_of_mem _ later)
    · have same : d = c := by
        rw [split] at here
        rcases List.mem_append.mp here with first | later
        · exact absurd (List.mem_append_left _ first) gone
        · exact (List.mem_cons.mp later).resolve_right fun inside => gone (List.mem_append_right _ inside)
      rwa [same]
    · rw [split, List.map_append, List.map_cons]
      exact frame
  · have made := removeInitAlone (lists.alone c conn given member)
    refine ⟨s.links, by simp [disconnect, given, made], ?_⟩
    rw [List.erase_of_not_mem member]
    exact lists.remove conn.signal s.links _ (lists.lists _) (fun _ inside => inside) (fun _ here gone => absurd here gone)
      fun _ _ => ⟨rfl, rfl⟩

omit [DecidableEq ℓ] in
theorem disconnectAllSpec (lists : Lists s) (g : σ) {fuel : Nat} (enough : (s.connected g).length < fuel) :
    ∃ links', disconnectAll s g fuel = some ({ s with
        links := links'
        connected := Function.update s.connected g [] }, .ok) ∧
      Lists { s with
        links := links'
        connected := Function.update s.connected g [] } := by
  obtain ⟨links', made, list, alone, frame⟩ := popAllSpec (lists.lists g) (by simpa using enough : ((s.connected g).map Sum.inr).length < fuel)
  refine ⟨links', by simp [disconnectAll, made], ?_⟩
  exact lists.remove g links' [] list (by simp) (fun c here _ => alone _ (List.mem_map_of_mem here)) frame

end Lists

end Nanosig.Signal
