/-!
# Walks

A walk follows a relation step by step. `Walk edge a b visited` says that `visited`
lists the places of a walk from `a` to `b`, both ends included; the walk that
stays at `a` visits `a` only. Walks can be joined at a common end, cut at any
place they visit, and read backwards along the reversed relation.

Two relations are defined by walks, and are what trees of (post-)dominators are
measured against:

* `Dominates edge root a b`: every walk from `root` to `b` visits `a`;
* `PostDominates edge isFinal a b`: every walk from `b` to a final place visits `a`.

Where there is no walk of that kind at all, a place is related to itself only.
-/

namespace Decouple

/-- The list names the places of a walk from the first argument to the second. -/
inductive Walk {α : Type} (edge : α → α → Prop) : α → α → List α → Prop where
  | stay (a : α) : Walk edge a a [a]
  | step {a b c : α} {visited : List α} :
      edge a b → Walk edge b c visited → Walk edge a c (a :: visited)

def Reaches {α : Type} (edge : α → α → Prop) (a b : α) : Prop :=
  ∃ visited, Walk edge a b visited

/-- Every walk from `root` to `b` visits `a`. A place that no walk leads to is
dominated by itself only. -/
def Dominates {α : Type} (edge : α → α → Prop) (root a b : α) : Prop :=
  a = b ∨ Reaches edge root b ∧ ∀ visited, Walk edge root b visited → a ∈ visited

/-- Every walk from `b` to a final place visits `a`. A place that leads to no
final place is post-dominated by itself only. -/
def PostDominates {α : Type} (edge : α → α → Prop) (isFinal : α → Prop) (a b : α) : Prop :=
  a = b ∨ (∃ c, isFinal c ∧ Reaches edge b c) ∧
    ∀ c visited, isFinal c → Walk edge b c visited → a ∈ visited

namespace Walk

variable {α : Type} {edge : α → α → Prop} {a b c : α} {visited others : List α}

theorem head?_eq (h : Walk edge a b visited) : visited.head? = some a := by
  cases h <;> rfl

theorem getLast?_eq (h : Walk edge a b visited) : visited.getLast? = some b := by
  induction h with
  | stay a => rfl
  | step hedge hwalk ih =>
      rw [List.getLast?_cons, ih]
      rfl

theorem start_mem (h : Walk edge a b visited) : a ∈ visited :=
  List.mem_of_head? h.head?_eq

theorem end_mem (h : Walk edge a b visited) : b ∈ visited :=
  List.mem_of_getLast? h.getLast?_eq

/-- Two walks make one walk if the second starts where the first ends; the common
place is visited once. -/
theorem join (h : Walk edge a b visited) (h' : Walk edge b c others) :
    Walk edge a c (visited ++ others.tail) := by
  induction h with
  | stay a =>
      cases h' with
      | stay => exact stay _
      | step hedge hwalk => exact step hedge hwalk
  | step hedge hwalk ih => exact step hedge (ih h')

/-- One more step at the end of a walk. -/
theorem snoc (h : Walk edge a b visited) (hedge : edge b c) :
    Walk edge a c (visited ++ [c]) :=
  h.join (step hedge (stay c))

/-- A walk can be cut at every place it visits. -/
theorem cut (h : Walk edge a b visited) (hmem : c ∈ visited) :
    ∃ before after, Walk edge a c before ∧ Walk edge c b after ∧
      visited = before ++ after.tail := by
  induction h with
  | stay a =>
      obtain rfl := List.mem_singleton.1 hmem
      exact ⟨[c], [c], stay c, stay c, rfl⟩
  | @step a d b visited hedge hwalk ih =>
      rcases List.mem_cons.1 hmem with rfl | hmem
      · exact ⟨[c], c :: visited, stay c, step hedge hwalk, rfl⟩
      · obtain ⟨before, after, hbefore, hafter, heq⟩ := ih hmem
        exact ⟨a :: before, after, step hedge hbefore, hafter, by rw [heq]; rfl⟩

/-- Backwards, a walk goes along the reversed relation. -/
theorem reverse (h : Walk edge a b visited) :
    Walk (fun x y => edge y x) b a visited.reverse := by
  induction h with
  | stay a => exact stay a
  | step hedge hwalk ih =>
      rw [List.reverse_cons]
      exact ih.snoc hedge

end Walk

namespace Reaches

variable {α : Type} {edge : α → α → Prop} {a b c : α}

theorem refl (a : α) : Reaches edge a a := ⟨[a], .stay a⟩

theorem trans (h : Reaches edge a b) (h' : Reaches edge b c) : Reaches edge a c := by
  obtain ⟨visited, hwalk⟩ := h
  obtain ⟨others, hwalk'⟩ := h'
  exact ⟨_, hwalk.join hwalk'⟩

theorem of_edge (h : edge a b) : Reaches edge a b := ⟨_, .step h (.stay b)⟩

end Reaches

end Decouple
