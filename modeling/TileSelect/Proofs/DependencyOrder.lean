import TileSelect.Graph.Basic

/-! # Lists in dependency order

The elements of a list stand for nodes and need other nodes; the list is in dependency order if whatever an
element needs is the node of an earlier one. -/
namespace TileSelect

/-- The nodes that an element needs are those of earlier elements. -/
def NeedsFirst {α : Type} (key : α → NodeId) (needs : α → NodeId → Prop) (xs : List α) : Prop :=
  ∀ before x after, xs = before ++ x :: after → ∀ n, needs x n → n ∈ before.map key

namespace NeedsFirst

variable {α : Type} {key : α → NodeId} {needs : α → NodeId → Prop} {xs ys : List α} {x : α}

theorem nil : NeedsFirst key needs [] := by
  intro before x after heq
  simp at heq

theorem append (hx : NeedsFirst key needs xs) (hy : NeedsFirst key needs ys) :
    NeedsFirst key needs (xs ++ ys) := by
  intro before z after heq n hn
  rcases List.append_eq_append_iff.mp heq with ⟨zs, hbefore, hys⟩ | ⟨zs, hxs, hrest⟩
  · rw [hbefore, List.map_append, List.mem_append]
    exact Or.inr (hy zs z after hys n hn)
  · cases zs with
    | nil => exact absurd (hy [] z after hrest.symm n hn) List.not_mem_nil
    | cons w zs =>
      obtain ⟨rfl, -⟩ := List.cons.inj hrest
      exact hx before z zs hxs n hn

theorem concat (hxs : NeedsFirst key needs xs) (hx : ∀ n, needs x n → n ∈ xs.map key) :
    NeedsFirst key needs (xs ++ [x]) := by
  intro before z after heq
  rcases List.append_eq_append_iff.mp heq with ⟨zs, hbefore, hlast⟩ | ⟨zs, hxs', hrest⟩
  · cases zs with
    | nil =>
      obtain ⟨rfl, -⟩ := List.cons.inj hlast
      rw [hbefore, List.append_nil]
      exact hx
    | cons w zs => simp at hlast
  · cases zs with
    | nil =>
      obtain ⟨rfl, -⟩ := List.cons.inj hrest
      rw [List.append_nil] at hxs'
      exact hxs' ▸ hx
    | cons w zs =>
      obtain ⟨rfl, -⟩ := List.cons.inj hrest
      exact hxs before z zs hxs'

theorem of_append (h : NeedsFirst key needs (xs ++ ys)) : NeedsFirst key needs xs := by
  intro before z after heq
  exact h before z (after ++ ys) (by simp [heq])

theorem mem_of_mem (h : NeedsFirst key needs xs) (hx : x ∈ xs) {n : NodeId} (hn : needs x n) :
    n ∈ xs.map key := by
  obtain ⟨before, after, heq⟩ := List.append_of_mem hx
  rw [heq, List.map_append, List.mem_append]
  exact Or.inl (h before x after heq n hn)

end NeedsFirst
end TileSelect
