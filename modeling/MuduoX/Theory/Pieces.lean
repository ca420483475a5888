import Mathlib

/-! # Pieces of a sequence of items

The items are lists, and the pieces are what a buffer, a file or a packet holds of them one after the
other. `Cut` says that the pieces hold the items in order and that no item is split between two. -/

namespace MuduoX

variable {α : Type*}

def Cut (pieces items : List (List α)) : Prop :=
  ∃ groups : List (List (List α)), groups.map List.flatten = pieces ∧ groups.flatten = items

namespace Cut

variable {ps qs items items' : List (List α)} {p item : List α}

theorem nil : Cut ([] : List (List α)) [] := ⟨[], rfl, rfl⟩

theorem append (h : Cut ps items) (h' : Cut qs items') : Cut (ps ++ qs) (items ++ items') := by
  obtain ⟨groups, rfl, rfl⟩ := h
  obtain ⟨groups', rfl, rfl⟩ := h'
  exact ⟨groups ++ groups', List.map_append, List.flatten_append⟩

theorem single (items : List (List α)) : Cut [items.flatten] items :=
  ⟨[items], rfl, List.append_nil items⟩

/-- An empty piece. -/
theorem concat_nil (h : Cut ps items) : Cut (ps ++ [[]]) items := by
  have hempty : Cut [[]] ([] : List (List α)) := single []
  simpa only [List.append_nil] using h.append hempty

/-- A piece with one item. -/
theorem concat (h : Cut ps items) (item : List α) : Cut (ps ++ [item]) (items ++ [item]) := by
  have hitem := single [item]
  rw [List.flatten_singleton] at hitem
  exact h.append hitem

/-- The items are those of the first pieces, and then those of the others. -/
theorem of_append (h : Cut (ps ++ qs) items) :
    ∃ first rest, items = first ++ rest ∧ Cut ps first ∧ Cut qs rest := by
  obtain ⟨groups, hgroups, rfl⟩ := h
  obtain ⟨gs, gs', rfl, rfl, rfl⟩ := List.map_eq_append_iff.mp hgroups
  exact ⟨gs.flatten, gs'.flatten, List.flatten_append, ⟨gs, rfl, rfl⟩, gs', rfl, rfl⟩

/-- An item is put behind the last piece. -/
theorem extend (h : Cut (ps ++ [p]) items) (item : List α) :
    Cut (ps ++ [p ++ item]) (items ++ [item]) := by
  obtain ⟨first, rest, rfl, hps, groups, hgroups, rfl⟩ := h.of_append
  obtain ⟨group, rfl, rfl⟩ := List.map_eq_singleton_iff.mp hgroups
  have hlast := single (group ++ [item])
  rw [List.flatten_concat] at hlast
  simpa only [List.flatten_singleton, List.append_assoc] using hps.append hlast

theorem flatten (h : Cut ps items) : ps.flatten = items.flatten := by
  obtain ⟨groups, rfl, rfl⟩ := h
  exact List.flatten_flatten.symm

/-- Pieces may be put together. -/
theorem join {pss : List (List (List α))} (h : Cut pss.flatten items) :
    Cut (pss.map List.flatten) items := by
  induction pss generalizing items with
  | nil => exact h
  | cons ps pss ih =>
    obtain ⟨first, rest, rfl, hps, hrest⟩ := h.of_append
    rw [List.map_cons, hps.flatten]
    exact (single first).append (ih hrest)

end Cut

end MuduoX
