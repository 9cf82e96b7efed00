import Mathlib

/-!
# Maps as lists sorted by key

A finite map kept as a list of entries strictly sorted by key, the way an
ordered map (`BTreeMap`) iterates. `insert` replaces the entry of an equal key,
and `collect` builds the map from a list of entries in order, so that the last
value given for a key is the one kept (`lookup_collect`).
-/

namespace AptosCore.SortedMap

variable {κ β : Type*} [LinearOrder κ]

/-- Insertion into a list sorted by key, replacing the entry of an equal key. -/
def insert (k : κ) (v : β) : List (κ × β) → List (κ × β)
  | [] => [(k, v)]
  | (k', v') :: rest =>
    if k < k' then (k, v) :: (k', v') :: rest
    else if k = k' then (k, v) :: rest
    else (k', v') :: insert k v rest

/-- The map of a list of entries, each inserted in turn. -/
def collect (xs : List (κ × β)) : List (κ × β) := xs.foldl (fun m kv => insert kv.1 kv.2 m) []

/-- Strictly sorted by key. -/
def Sorted (m : List (κ × β)) : Prop := m.Pairwise fun a b => a.1 < b.1

instance (m : List (κ × β)) : Decidable (Sorted m) := inferInstanceAs (Decidable (m.Pairwise _))

theorem mem_insert {k : κ} {v : β} {x : κ × β} :
    ∀ {m : List (κ × β)}, x ∈ insert k v m → x = (k, v) ∨ x ∈ m
  | [], h => Or.inl (List.mem_singleton.mp h)
  | (k', v') :: rest, h => by
    rw [insert] at h
    split_ifs at h with hlt heq
    · rcases List.mem_cons.mp h with rfl | h
      · exact Or.inl rfl
      · exact Or.inr h
    · rcases List.mem_cons.mp h with rfl | h
      · exact Or.inl rfl
      · exact Or.inr (List.mem_cons_of_mem _ h)
    · rcases List.mem_cons.mp h with rfl | h
      · exact Or.inr List.mem_cons_self
      · rcases mem_insert h with rfl | h
        · exact Or.inl rfl
        · exact Or.inr (List.mem_cons_of_mem _ h)

theorem mem_insert_self (k : κ) (v : β) : ∀ m : List (κ × β), (k, v) ∈ insert k v m
  | [] => List.mem_singleton_self _
  | (k', v') :: rest => by
    rw [insert]
    split_ifs
    · exact List.mem_cons_self
    · exact List.mem_cons_self
    · exact List.mem_cons_of_mem _ (mem_insert_self k v rest)

/-- An entry of another key survives an insertion. -/
theorem mem_insert_of_ne {k : κ} {v : β} {x : κ × β} (hx : x.1 ≠ k) :
    ∀ {m : List (κ × β)}, x ∈ m → x ∈ insert k v m
  | (k', v') :: rest, h => by
    rw [insert]
    split_ifs with hlt heq
    · exact List.mem_cons_of_mem _ h
    · rcases List.mem_cons.mp h with rfl | h
      · exact absurd heq.symm hx
      · exact List.mem_cons_of_mem _ h
    · rcases List.mem_cons.mp h with rfl | h
      · exact List.mem_cons_self
      · exact List.mem_cons_of_mem _ (mem_insert_of_ne hx h)

theorem sorted_insert (k : κ) (v : β) : ∀ {m : List (κ × β)}, Sorted m → Sorted (insert k v m)
  | [], _ => List.pairwise_singleton _ _
  | (k', v') :: rest, h => by
    have hrest : ∀ x ∈ rest, k' < x.1 := fun x hx => List.rel_of_pairwise_cons h hx
    rw [insert]
    split_ifs with hlt heq
    · -- the new key goes first
      refine List.Pairwise.cons (fun x hx => ?_) h
      rcases List.mem_cons.mp hx with rfl | hx
      · exact hlt
      · exact hlt.trans (hrest x hx)
    · -- the new key replaces the first
      subst heq
      exact List.Pairwise.cons hrest h.of_cons
    · -- the new key goes after the first
      have hgt : k' < k := lt_of_le_of_ne (not_lt.mp hlt) (Ne.symm heq)
      refine List.Pairwise.cons (fun x hx => ?_) (sorted_insert k v h.of_cons)
      rcases mem_insert hx with rfl | hx
      · exact hgt
      · exact hrest x hx

theorem lookup_cons_of_ne {k₀ k : κ} (v : β) (m : List (κ × β)) (h : k₀ ≠ k) :
    ((k, v) :: m).lookup k₀ = m.lookup k₀ := by
  rw [List.lookup_cons, beq_false_of_ne h]

theorem lookup_insert (k : κ) (v : β) (k₀ : κ) :
    ∀ m : List (κ × β), (insert k v m).lookup k₀ = if k₀ = k then some v else m.lookup k₀
  | [] => by by_cases h : k₀ = k <;> simp [insert, h]
  | (k', v') :: rest => by
    rw [insert]
    by_cases h₀ : k₀ = k
    · -- the key inserted is found at its new entry
      subst h₀
      rw [if_pos rfl]
      split_ifs with hlt heq
      · exact List.lookup_cons_self
      · exact List.lookup_cons_self
      · rw [lookup_cons_of_ne _ _ heq, lookup_insert k₀ v k₀ rest, if_pos rfl]
    · -- any other key is found where it was
      rw [if_neg h₀]
      split_ifs with hlt heq
      · rw [lookup_cons_of_ne _ _ h₀]
      · subst heq
        rw [lookup_cons_of_ne _ _ h₀, lookup_cons_of_ne _ _ h₀]
      · by_cases hk' : k₀ = k'
        · subst hk'
          rw [List.lookup_cons_self, List.lookup_cons_self]
        · rw [lookup_cons_of_ne _ _ hk', lookup_cons_of_ne _ _ hk', lookup_insert k v k₀ rest,
            if_neg h₀]

/-- Removal of the entry of a key. -/
def erase (k : κ) (m : List (κ × β)) : List (κ × β) := m.filter fun x => x.1 ≠ k

theorem sorted_erase (k : κ) {m : List (κ × β)} (h : Sorted m) : Sorted (erase k m) :=
  List.Pairwise.filter _ h

theorem length_erase_le (k : κ) (m : List (κ × β)) : (erase k m).length ≤ m.length :=
  List.length_filter_le _ _

theorem lookup_erase (k k₀ : κ) :
    ∀ m : List (κ × β), (erase k m).lookup k₀ = if k₀ = k then none else m.lookup k₀
  | [] => by simp [erase]
  | (k', v') :: rest => by
    by_cases hk' : k' = k
    · subst hk'
      rw [erase, List.filter_cons_of_neg (by simp), ← erase, lookup_erase]
      by_cases h₀ : k₀ = k'
      · rw [if_pos h₀, if_pos h₀]
      · rw [if_neg h₀, if_neg h₀, lookup_cons_of_ne _ _ h₀]
    · rw [erase, List.filter_cons_of_pos (by simpa using hk'), ← erase]
      by_cases h₀ : k₀ = k'
      · subst h₀
        rw [List.lookup_cons_self, if_neg hk', List.lookup_cons_self]
      · rw [lookup_cons_of_ne _ _ h₀, lookup_erase, lookup_cons_of_ne _ _ h₀]

theorem sorted_collect (xs : List (κ × β)) : Sorted (collect xs) := by
  suffices h : ∀ (m : List (κ × β)), Sorted m → Sorted (xs.foldl (fun m kv => insert kv.1 kv.2 m) m) from
    h [] List.Pairwise.nil
  induction xs with
  | nil => exact fun _ hm => hm
  | cons x xs ih => exact fun m hm => ih _ (sorted_insert x.1 x.2 hm)

/-- The map keeps the last value given for each key. -/
theorem lookup_collect (xs : List (κ × β)) (k : κ) : (collect xs).lookup k = xs.reverse.lookup k := by
  suffices h : ∀ (m : List (κ × β)),
      (xs.foldl (fun m kv => insert kv.1 kv.2 m) m).lookup k =
        (xs.reverse.lookup k).or (m.lookup k) from by
    rw [collect, h, List.lookup_nil, Option.or_none]
  induction xs with
  | nil => simp
  | cons x xs ih =>
    obtain ⟨k', v'⟩ := x
    intro m
    rw [List.foldl_cons, ih, lookup_insert, List.reverse_cons, List.lookup_append,
      Option.or_assoc]
    by_cases hk : k = k'
    · -- the last value of the key wins over what the map held
      subst hk
      rw [if_pos rfl, List.lookup_cons_self, Option.some_or]
    · rw [if_neg hk, lookup_cons_of_ne _ _ hk, List.lookup_nil, Option.none_or]

theorem keys_nodup_of_sorted {m : List (κ × β)} (h : Sorted m) : (m.map Prod.fst).Nodup :=
  List.pairwise_map.mpr (h.imp ne_of_lt)

/-- In a sorted map an entry is what the lookup of its key gives. -/
theorem mem_iff_lookup {m : List (κ × β)} (h : Sorted m) {x : κ × β} : x ∈ m ↔ m.lookup x.1 = some x.2 := by
  induction m with
  | nil => simp
  | cons y m ih =>
    have hy : ∀ z ∈ m, y.1 < z.1 := fun z hz => List.rel_of_pairwise_cons h hz
    rw [List.mem_cons, ih h.of_cons, List.lookup_cons]
    by_cases hx : x.1 = y.1
    · -- a later entry has a larger key than `y`
      have hnot : m.lookup x.1 = none := by
        rw [List.lookup_eq_none_iff]
        intro z hz
        rw [bne_iff_ne, hx]
        exact ne_of_lt (hy z hz)
      rw [beq_iff_eq.mpr hx, hnot]
      constructor
      · rintro (rfl | h)
        · rfl
        · exact absurd h (by simp)
      · intro hv
        exact Or.inl (Prod.ext hx (Option.some.inj hv).symm)
    · rw [beq_false_of_ne hx]
      constructor
      · rintro (rfl | h)
        · exact absurd rfl hx
        · exact h
      · exact Or.inr

theorem collect_eq_nil_iff (xs : List (κ × β)) : collect xs = [] ↔ xs = [] := by
  constructor
  · intro h
    cases xs with
    | nil => rfl
    | cons x xs =>
      obtain ⟨k, v⟩ := x
      have hlook := lookup_collect ((k, v) :: xs) k
      rw [h, List.lookup_nil, List.reverse_cons, List.lookup_append, List.lookup_cons_self] at hlook
      cases hr : xs.reverse.lookup k <;> simp [hr] at hlook
  · rintro rfl
    rfl

end AptosCore.SortedMap
