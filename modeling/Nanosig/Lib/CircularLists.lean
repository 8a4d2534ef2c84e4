import Nanosig.Lib.CircularList

/-! Several circular lists in one memory, each behind its head, and the lists read backwards. -/
namespace CircularList

variable {α : Type*}

def Links.mirror (l : Links α) : Links α := ⟨l.prev, l.next⟩

section Mirror

variable {l : Links α} {head x : α} {xs A B : List α}

theorem Circular.mirror (list : Circular l head xs) : Circular l.mirror head xs.reverse := by
  refine ⟨?_, ?_⟩
  · have reversed : head :: xs.reverse ++ [head] = (head :: xs ++ [head]).reverse := by simp
    rw [reversed, List.isChain_reverse]
    exact list.linked.imp fun a b linked => ⟨linked.2, linked.1⟩
  · have same : (head :: xs.reverse).Perm (head :: xs) := (List.reverse_perm xs).cons head
    exact same.nodup_iff.mpr list.distinct

theorem Circular.follows (list : Circular l head (A ++ x :: B)) : l.next x = some (B.head?.getD head) := by
  have linked := list.linked
  rw [show head :: (A ++ x :: B) ++ [head] = (head :: A) ++ (x :: (B ++ [head])) by simp] at linked
  obtain ⟨-, rest, -⟩ := List.isChain_append.mp linked
  cases B with
  | nil => exact (List.isChain_cons_cons.mp rest).1.1
  | cons y B => exact (List.isChain_cons_cons.mp rest).1.1

theorem Circular.begins (list : Circular l head xs) : l.next head = some (xs.head?.getD head) := by
  cases xs with
  | nil => exact (circularNil.mp list).1
  | cons x xs => exact list.first

end Mirror

section Many

abbrev Contents (α : Type*) := α → Option (List α)

variable {l l' : Links α} {lists : Contents α} {head node : α} {xs ys : List α}

def Free (lists : Contents α) (node : α) : Prop := ∀ head xs, lists head = some xs → node ∉ head :: xs

structure Represents (l : Links α) (lists : Contents α) : Prop where
  holds : ∀ head xs, lists head = some xs → Circular l head xs
  apart : ∀ head head' xs ys, lists head = some xs → lists head' = some ys → head ≠ head' →
    ∀ x ∈ head :: xs, x ∉ head' :: ys

theorem Represents.nothing (l : Links α) : Represents l fun _ => none :=
  ⟨fun _ _ here => (Option.some_ne_none _ here.symm).elim, fun _ _ _ _ here => (Option.some_ne_none _ here.symm).elim⟩

theorem Represents.congr (rep : Represents l lists) (same : ∀ a, ¬Free lists a → l'.next a = l.next a ∧ l'.prev a = l.prev a) :
    Represents l' lists :=
  ⟨fun head xs here => (rep.holds head xs here).congr fun a member => same a fun free => free head xs here member, rep.apart⟩

theorem Represents.member (rep : Represents l lists) (here : lists head = some xs) (inside : node ∈ xs) :
    lists node = none ∧ ∀ head' ys, lists head' = some ys → node ∈ ys → head' = head := by
  have distinct := (List.nodup_cons.mp (rep.holds head xs here).distinct).1
  have apart : node ≠ head := fun same => distinct (same ▸ inside)
  refine ⟨?_, fun head' ys there inside' => ?_⟩
  · cases own : lists node with
    | none => rfl
    | some zs =>
      exact absurd List.mem_cons_self (rep.apart head node xs zs here own apart.symm node (List.mem_cons_of_mem _ inside))
  · by_contra differ
    exact rep.apart head' head ys xs there here differ node (List.mem_cons_of_mem _ inside') (List.mem_cons_of_mem _ inside)

variable [DecidableEq α]

theorem Represents.drop (rep : Represents l lists) (head : α) : Represents l (Function.update lists head none) := by
  have before : ∀ h zs, Function.update lists head none h = some zs → lists h = some zs := by
    intro h zs here
    by_cases same : h = head
    · simp [same] at here
    · rwa [Function.update_of_ne same] at here
  exact ⟨fun h zs here => rep.holds h zs (before h zs here),
    fun h h' zs ws here there => rep.apart h h' zs ws (before h zs here) (before h' ws there)⟩

theorem Represents.change (rep : Represents l lists) (here : lists head = some xs) (list : Circular l' head ys)
    (from_ : ∀ x ∈ ys, x ∈ xs ∨ Free lists x)
    (frame : ∀ a, a ∉ head :: xs → ¬Free lists a → l'.next a = l.next a ∧ l'.prev a = l.prev a) :
    Represents l' (Function.update lists head (some ys)) := by
  have away : ∀ h zs, h ≠ head → lists h = some zs → ∀ a ∈ h :: zs, a ∉ head :: xs ∧ a ∉ head :: ys := by
    intro h zs differ there a member
    have outside := rep.apart h head zs xs there here differ a member
    refine ⟨outside, fun inside => ?_⟩
    rcases List.mem_cons.mp inside with same | inside
    · exact outside (same ▸ List.mem_cons_self)
    · rcases from_ a inside with old | free
      · exact outside (List.mem_cons_of_mem _ old)
      · exact free h zs there member
  refine ⟨fun h zs there => ?_, fun h h' zs ws first second differ x member => ?_⟩
  · by_cases same : h = head
    · subst same
      rw [Function.update_self] at there
      cases there
      exact list
    · rw [Function.update_of_ne same] at there
      exact (rep.holds h zs there).congr fun a member =>
        frame a (away h zs same there a member).1 fun free => free h zs there member
  · by_cases one : h = head
    · subst one
      rw [Function.update_self] at first
      rw [Function.update_of_ne differ.symm] at second
      cases first
      exact fun inside => (away h' ws differ.symm second x inside).2 member
    · rw [Function.update_of_ne one] at first
      by_cases two : h' = head
      · subst two
        rw [Function.update_self] at second
        cases second
        exact (away h zs one first x member).2
      · rw [Function.update_of_ne two] at second
        exact rep.apart h h' zs ws first second differ x member

theorem Represents.begin (rep : Represents l lists) (free : Free lists head) (list : Circular l head []) :
    Represents l (Function.update lists head (some [])) := by
  refine ⟨fun h zs there => ?_, fun h h' zs ws first second differ x member => ?_⟩
  · by_cases same : h = head
    · subst same
      rw [Function.update_self] at there
      cases there
      exact list
    · rw [Function.update_of_ne same] at there
      exact rep.holds h zs there
  · by_cases one : h = head
    · subst one
      rw [Function.update_self] at first
      rw [Function.update_of_ne differ.symm] at second
      cases first
      obtain rfl : x = h := by simpa using member
      exact free h' ws second
    · rw [Function.update_of_ne one] at first
      by_cases two : h' = head
      · subst two
        rw [Function.update_self] at second
        cases second
        rintro inside
        obtain rfl : x = h' := by simpa using inside
        exact free h zs first member
      · rw [Function.update_of_ne two] at second
        exact rep.apart h h' zs ws first second differ x member

end Many

end CircularList
