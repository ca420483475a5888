import Mathlib

/-! # A map as the index of a list

A map from keys to values indexes a list of entries when the keys of the entries are different, each
leads to the value of its entry, and there are no other keys. -/

namespace MuduoX

variable {τ κ ν : Type*} {key : τ → κ} {value : τ → ν} {l l' : List τ} {m : κ → Option ν} {t : τ}

structure Indexes (key : τ → κ) (value : τ → ν) (l : List τ) (m : κ → Option ν) : Prop where
  get : ∀ t ∈ l, m (key t) = some (value t)
  nodup : (l.map key).Nodup
  mem : ∀ k v, m k = some v → ∃ t ∈ l, key t = k

namespace Indexes

theorem nil : Indexes key value [] fun _ => none := ⟨nofun, List.nodup_nil, nofun⟩

theorem of_perm (h : Indexes key value l m) (hperm : l'.Perm l) : Indexes key value l' m := by
  refine ⟨fun t ht => h.get t (hperm.mem_iff.mp ht), (hperm.map key).nodup_iff.mpr h.nodup,
    fun k v hk => ?_⟩
  obtain ⟨t, ht, hkey⟩ := h.mem k v hk
  exact ⟨t, hperm.mem_iff.mpr ht, hkey⟩

/-- A key that no entry has is not in the map. -/
theorem eq_none (h : Indexes key value l m) {k : κ} (hne : ∀ t ∈ l, key t ≠ k) : m k = none := by
  refine Option.eq_none_iff_forall_ne_some.mpr fun v hv => ?_
  obtain ⟨t, ht, hkey⟩ := h.mem k v hv
  exact hne t ht hkey

/-- What the map holds is the value of an entry. -/
theorem exists_of_get (h : Indexes key value l m) {k : κ} {v : ν} (hk : m k = some v) :
    ∃ t ∈ l, key t = k ∧ value t = v := by
  obtain ⟨t, ht, rfl⟩ := h.mem k v hk
  exact ⟨t, ht, rfl, Option.some.inj ((h.get t ht).symm.trans hk)⟩

variable [DecidableEq κ]

theorem cons (h : Indexes key value l m) (hne : ∀ u ∈ l, key u ≠ key t) :
    Indexes key value (t :: l) (Function.update m (key t) (some (value t))) := by
  refine ⟨fun u hu => ?_, List.nodup_cons.mpr ⟨fun hmem => ?_, h.nodup⟩, fun k v hk => ?_⟩
  · obtain rfl | hu := List.mem_cons.mp hu
    · exact Function.update_self ..
    · rw [Function.update_of_ne (hne u hu)]
      exact h.get u hu
  · obtain ⟨u, hu, hkey⟩ := List.mem_map.mp hmem
    exact hne u hu hkey
  · obtain rfl | hkey := eq_or_ne k (key t)
    · exact ⟨t, List.mem_cons_self .., rfl⟩
    · rw [Function.update_of_ne hkey] at hk
      obtain ⟨u, hu, hkey⟩ := h.mem k v hk
      exact ⟨u, List.mem_cons_of_mem _ hu, hkey⟩

theorem tail (h : Indexes key value (t :: l) m) :
    Indexes key value l (Function.update m (key t) none) := by
  obtain ⟨hnot, hnodup⟩ := List.nodup_cons.mp h.nodup
  refine ⟨fun u hu => ?_, hnodup, fun k v hk => ?_⟩
  · have hne : key u ≠ key t := fun heq => hnot (heq ▸ List.mem_map_of_mem hu)
    rw [Function.update_of_ne hne]
    exact h.get u (List.mem_cons_of_mem _ hu)
  · obtain rfl | hkey := eq_or_ne k (key t)
    · rw [Function.update_self] at hk
      cases hk
    · rw [Function.update_of_ne hkey] at hk
      obtain ⟨u, hu, rfl⟩ := h.mem k v hk
      obtain rfl | hu := List.mem_cons.mp hu
      · exact absurd rfl hkey
      · exact ⟨u, hu, rfl⟩

end Indexes

end MuduoX
