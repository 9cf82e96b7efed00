import Mathlib.Data.List.Perm.Basic
import Mathlib.Data.List.Nodup

/-!
# Maps as lists of entries written in place

A finite map kept as a list of entries in the order the keys were first written,
the way a hash map is modelled when nothing reads its iteration order. The value
of a key is the value of its first entry (`List.lookup`); `set` writes a key by
replacing that entry, or by adding one at the end when the key has none. With
distinct keys a key's value is the value of its only entry (`lookup_of_mem`), and
writing a key trades its old value for the new one in the list of values
(`values_set_perm`).
-/

namespace AptosCore.AssocMap

variable {κ β : Type*} [DecidableEq κ]

/-- Write the value of a key, in place of its first entry or as a new last entry. -/
def set (k : κ) (v : β) : List (κ × β) → List (κ × β)
  | [] => [(k, v)]
  | (k', v') :: m => if k' = k then (k, v) :: m else (k', v') :: set k v m

theorem lookup_cons_of_ne {k₀ k : κ} (v : β) (m : List (κ × β)) (h : k₀ ≠ k) :
    ((k, v) :: m).lookup k₀ = m.lookup k₀ := by
  rw [List.lookup_cons, beq_false_of_ne h]

theorem lookup_set (k : κ) (v : β) (k₀ : κ) :
    ∀ m : List (κ × β), (set k v m).lookup k₀ = if k₀ = k then some v else m.lookup k₀
  | [] => by
    by_cases h₀ : k₀ = k
    · subst h₀
      rw [set, List.lookup_cons_self, if_pos rfl]
    · rw [set, lookup_cons_of_ne _ _ h₀, if_neg h₀, List.lookup_nil]
  | (k', v') :: m => by
    rw [set]
    split_ifs with hk h₀ h₀
    · subst hk h₀
      exact List.lookup_cons_self
    · subst hk
      rw [lookup_cons_of_ne _ _ h₀, lookup_cons_of_ne _ _ h₀]
    · rw [h₀, lookup_cons_of_ne _ _ (Ne.symm hk), lookup_set k v k, if_pos rfl]
    · by_cases hk₀ : k₀ = k'
      · subst hk₀
        rw [List.lookup_cons_self, List.lookup_cons_self]
      · rw [lookup_cons_of_ne _ _ hk₀, lookup_cons_of_ne _ _ hk₀, lookup_set k v k₀, if_neg h₀]

/-- An entry after a write is the written one or an entry from before it. -/
theorem mem_set {k : κ} {v : β} {e : κ × β} : ∀ {m : List (κ × β)}, e ∈ set k v m → e = (k, v) ∨ e ∈ m
  | [], h => Or.inl (List.mem_singleton.mp h)
  | (k', v') :: m, h => by
    rw [set] at h
    split_ifs at h
    · rcases List.mem_cons.mp h with rfl | h
      · exact Or.inl rfl
      · exact Or.inr (List.mem_cons_of_mem _ h)
    · rcases List.mem_cons.mp h with rfl | h
      · exact Or.inr List.mem_cons_self
      · exact (mem_set h).imp_right (List.mem_cons_of_mem _)

/-- Writing a key keeps the keys, and adds the key at the end when it is new. -/
theorem keys_set (k : κ) (v : β) :
    ∀ m : List (κ × β),
      (set k v m).map Prod.fst = if k ∈ m.map Prod.fst then m.map Prod.fst else m.map Prod.fst ++ [k]
  | [] => rfl
  | (k', v') :: m => by
    rw [set]
    split_ifs with hk hmem hmem
    · subst hk
      rfl
    · exact absurd (List.mem_cons.mpr (Or.inl hk.symm)) hmem
    · have hmem' : k ∈ m.map Prod.fst := (List.mem_cons.mp hmem).resolve_left (Ne.symm hk)
      rw [List.map_cons, List.map_cons, keys_set k v m, if_pos hmem']
    · have hmem' : k ∉ m.map Prod.fst := fun h => hmem (List.mem_cons_of_mem _ h)
      rw [List.map_cons, List.map_cons, keys_set k v m, if_neg hmem', List.cons_append]

theorem nodup_keys_set (k : κ) (v : β) {m : List (κ × β)} (h : (m.map Prod.fst).Nodup) :
    ((set k v m).map Prod.fst).Nodup := by
  rw [keys_set]
  split_ifs with hmem
  · exact h
  · refine List.nodup_append.mpr ⟨h, List.nodup_singleton k, fun a ha b hb => ?_⟩
    rw [List.mem_singleton.mp hb]
    exact fun e => hmem (e ▸ ha)

/-- Writing a key replaces its old value, if it had one, by the new one among the values. -/
theorem values_set_perm (k : κ) (v : β) :
    ∀ m : List (κ × β), ((set k v m).map Prod.snd ++ (m.lookup k).toList).Perm (m.map Prod.snd ++ [v])
  | [] => by simp [set]
  | (k', v') :: m => by
    rw [set]
    split_ifs with hk
    · subst hk
      simp only [List.lookup_cons_self, Option.toList_some, List.map_cons, List.cons_append]
      -- both sides are the old values with `v` and `v'` in front
      exact ((List.perm_append_singleton _ _).cons v).trans
        ((List.Perm.swap _ _ _).trans ((List.perm_append_singleton _ _).cons v').symm)
    · rw [lookup_cons_of_ne _ _ (Ne.symm hk), List.map_cons, List.map_cons, List.cons_append,
        List.cons_append]
      exact (values_set_perm k v m).cons v'

/-- With distinct keys, the value of a key is that of its entry. -/
theorem lookup_of_mem {k : κ} {v : β} :
    ∀ {m : List (κ × β)}, (m.map Prod.fst).Nodup → (k, v) ∈ m → m.lookup k = some v
  | (k', v') :: m, hnd, hmem => by
    rw [List.map_cons, List.nodup_cons] at hnd
    rcases List.mem_cons.mp hmem with h | h
    · obtain ⟨rfl, rfl⟩ := Prod.mk.inj h
      exact List.lookup_cons_self
    · have hk : k ≠ k' := fun e => hnd.1 (List.mem_map.mpr ⟨(k, v), h, e⟩)
      rw [lookup_cons_of_ne _ _ hk]
      exact lookup_of_mem hnd.2 h

theorem mem_of_lookup_eq_some {k : κ} {v : β} {m : List (κ × β)} (h : m.lookup k = some v) :
    (k, v) ∈ m := by
  obtain ⟨l₁, l₂, rfl, -⟩ := List.lookup_eq_some_iff.mp h
  exact List.mem_append_right _ List.mem_cons_self

/-- Keeping the entries whose key passes a test keeps the values of exactly those keys. -/
theorem lookup_filter_fst (p : κ → Bool) (k : κ) :
    ∀ m : List (κ × β), (m.filter fun e => p e.1).lookup k = if p k then m.lookup k else none
  | [] => by simp
  | (k', v') :: m => by
    by_cases hk : k = k'
    · subst hk
      by_cases hp : p k
      · rw [List.filter_cons_of_pos (p := fun e : κ × β => p e.1) hp, List.lookup_cons_self,
          if_pos hp, List.lookup_cons_self]
      · rw [List.filter_cons_of_neg (p := fun e : κ × β => p e.1) hp, lookup_filter_fst p k m,
          if_neg hp, if_neg hp]
    · rw [lookup_cons_of_ne _ _ hk, ← lookup_filter_fst p k m]
      by_cases hp' : p k'
      · rw [List.filter_cons_of_pos (p := fun e : κ × β => p e.1) hp', lookup_cons_of_ne _ _ hk]
      · rw [List.filter_cons_of_neg (p := fun e : κ × β => p e.1) hp']

/-- Keeping the entries whose value passes a test keeps the value of a key that passes it. -/
theorem lookup_filter (p : β → Bool) (k : κ) {m : List (κ × β)} (hnd : (m.map Prod.fst).Nodup) :
    (m.filter fun e => p e.2).lookup k = (m.lookup k).filter p := by
  have hnd' : ((m.filter fun e => p e.2).map Prod.fst).Nodup :=
    hnd.sublist ((List.filter_sublist).map _)
  cases h : m.lookup k with
  | none =>
    cases h' : (m.filter fun e => p e.2).lookup k with
    | none => rfl
    | some v =>
      have hmem := List.mem_of_mem_filter (mem_of_lookup_eq_some h')
      rw [lookup_of_mem hnd hmem] at h
      cases h
  | some v =>
    by_cases hv : p v
    · rw [Option.filter_some, if_pos hv]
      exact lookup_of_mem hnd' (List.mem_filter.mpr ⟨mem_of_lookup_eq_some h, hv⟩)
    · rw [Option.filter_some, if_neg hv]
      cases h' : (m.filter fun e => p e.2).lookup k with
      | none => rfl
      | some w =>
        have hmem := List.mem_filter.mp (mem_of_lookup_eq_some h')
        rw [lookup_of_mem hnd hmem.1] at h
        cases h
        exact absurd hmem.2 hv

end AptosCore.AssocMap
