import Mathlib.Tactic.Ring

/-!
# Sparse Merkle trees

A sparse Merkle tree over keys read as bit strings, `bit k d` the bit of `k` at
depth `d`. The root over a list of leaves `(key, leaf hash)` splits them by their
bit at each depth; a subtree with no leaf is the placeholder and one with a
single leaf is that leaf's hash, at whatever depth the leaf becomes alone.

A key's path from a subtree down `L` levels meets one sibling subtree a level
(`pathSiblings`); climbing back up (`climb`) from the subtree at the end of the
path rebuilds the root as long as no subtree on the way was collapsed, that is
as long as each held two leaves or more (`root_climb`).
-/

namespace AptosCore.SparseMerkle

variable {κ α : Type*} (node : α → α → α) (placeholder : α) (bit : κ → Nat → Bool)

/-- The root of the subtree at `depth` with `n` levels below it over the leaves
`(key, leaf hash)` in it. -/
def root : Nat → Nat → List (κ × α) → α
  | _, _, [] => placeholder
  | _, _, [l] => l.2
  | 0, _, _ :: _ :: _ => placeholder
  | n + 1, d, l₁ :: l₂ :: ls =>
    node (root n (d + 1) ((l₁ :: l₂ :: ls).filter fun l => !bit l.1 d))
      (root n (d + 1) ((l₁ :: l₂ :: ls).filter fun l => bit l.1 d))

/-- The leaves that follow `k` for `L` levels down from `depth`. -/
def descend (k : κ) : Nat → Nat → List (κ × α) → List (κ × α)
  | _, 0, ls => ls
  | d, L + 1, ls => descend k (d + 1) L (ls.filter fun l => bit l.1 d == bit k d)

/-- The roots of the subtrees beside the path of `k` for `L` levels down from
`depth`, top first. -/
def pathSiblings (k : κ) : Nat → Nat → Nat → List (κ × α) → List α
  | _, _, 0, _ => []
  | 0, _, _ + 1, _ => []
  | n + 1, d, L + 1, ls =>
    root node placeholder bit n (d + 1) (ls.filter fun l => bit l.1 d != bit k d) ::
      pathSiblings k n (d + 1) L (ls.filter fun l => bit l.1 d == bit k d)

/-- Climb from a subtree on the path of `k` up to `depth`, with the siblings on
the way, top first: the sibling is on the left where `k` goes right. -/
def climb (k : κ) : Nat → List α → α → α
  | _, [], below => below
  | d, s :: sibs, below =>
    if bit k d then node s (climb k (d + 1) sibs below) else node (climb k (d + 1) sibs below) s

variable {node placeholder bit}

@[simp] theorem root_nil (n d : Nat) : root node placeholder bit n d ([] : List (κ × α)) = placeholder := by
  cases n <;> rfl

@[simp] theorem root_singleton (n d : Nat) (l : κ × α) : root node placeholder bit n d [l] = l.2 := by
  cases n <;> rfl

/-- A subtree with two leaves or more is the node over its two halves. -/
theorem root_succ_of_two_le {n d : Nat} {ls : List (κ × α)} (h : 2 ≤ ls.length) :
    root node placeholder bit (n + 1) d ls =
      node (root node placeholder bit n (d + 1) (ls.filter fun l => !bit l.1 d))
        (root node placeholder bit n (d + 1) (ls.filter fun l => bit l.1 d)) := by
  match ls, h with
  | _ :: _ :: _, _ => rfl

@[simp] theorem descend_zero (k : κ) (d : Nat) (ls : List (κ × α)) : descend bit k d 0 ls = ls := rfl

theorem descend_succ (k : κ) (d L : Nat) (ls : List (κ × α)) :
    descend bit k d (L + 1) ls = descend bit k (d + 1) L (ls.filter fun l => bit l.1 d == bit k d) :=
  rfl

theorem length_pathSiblings (k : κ) :
    ∀ {n d L : Nat} (ls : List (κ × α)), L ≤ n → (pathSiblings node placeholder bit k n d L ls).length = L
  | n, _, 0, _, _ => by cases n <;> rfl
  | n + 1, d, L + 1, ls, h => by
    rw [pathSiblings, List.length_cons, length_pathSiblings k _ (by omega)]

/-- The halves of a node as the leaves that follow `k` and those that do not. -/
theorem filter_bit_eq (k : κ) (d : Nat) (ls : List (κ × α)) :
    (ls.filter fun l => bit l.1 d == bit k d) =
        (if bit k d then ls.filter fun l => bit l.1 d else ls.filter fun l => !bit l.1 d) ∧
      (ls.filter fun l => bit l.1 d != bit k d) =
        (if bit k d then ls.filter fun l => !bit l.1 d else ls.filter fun l => bit l.1 d) := by
  cases bit k d <;> simp

/-- Climbing back along the path of `k` rebuilds the root, as long as every
subtree on the path above the last held two leaves or more. -/
theorem root_climb (k : κ) :
    ∀ {L n d : Nat} (ls : List (κ × α)), L ≤ n → (∀ t, t < L → 2 ≤ (descend bit k d t ls).length) →
      climb node bit k d (pathSiblings node placeholder bit k n d L ls)
          (root node placeholder bit (n - L) (d + L) (descend bit k d L ls)) =
        root node placeholder bit n d ls
  | 0, n, d, ls, _, _ => by simp [pathSiblings, climb]
  | L + 1, n + 1, d, ls, hL, hsplit => by
    have htwo : 2 ≤ ls.length := hsplit 0 (by omega)
    -- the path goes on in the half of `k`; the other half is the sibling
    have ih := root_climb k (ls.filter fun l => bit l.1 d == bit k d) (show L ≤ n by omega)
      (fun t ht => by rw [← descend_succ]; exact hsplit (t + 1) (by omega))
    rw [show n + 1 - (L + 1) = n - L by omega, show d + (L + 1) = d + 1 + L by omega,
      descend_succ, pathSiblings, climb, ih, root_succ_of_two_le htwo]
    obtain ⟨hsame, hother⟩ := filter_bit_eq k d ls
    rw [hsame, hother]
    cases bit k d <;> rfl

/-- The climb as the fold over the siblings paired with the bits of `k`, top first. -/
theorem climb_eq_foldr (k : κ) :
    ∀ (d : Nat) (sibs : List α) (below : α),
      climb node bit k d sibs below =
        (sibs.zip ((List.range sibs.length).map fun i => bit k (d + i))).foldr
          (fun p h => if p.2 then node p.1 h else node h p.1) below
  | _, [], _ => rfl
  | d, s :: sibs, below => by
    have hbits : ((List.range (sibs.length + 1)).map fun i => bit k (d + i)) =
        bit k d :: (List.range sibs.length).map fun i => bit k (d + 1 + i) := by
      rw [List.range_succ_eq_map, List.map_cons, List.map_map]
      congr 1
      apply List.map_congr_left
      intro i _
      rw [Function.comp_apply, Nat.add_assoc, Nat.add_comm 1 i]
    rw [climb, climb_eq_foldr k (d + 1) sibs below, List.length_cons, hbits, List.zip_cons_cons,
      List.foldr_cons]

/-- Climbing past a list of siblings and then another is one climb past both. -/
theorem climb_append (k : κ) :
    ∀ (d : Nat) (s₁ s₂ : List α) (below : α),
      climb node bit k d (s₁ ++ s₂) below = climb node bit k d s₁ (climb node bit k (d + s₁.length) s₂ below)
  | d, [], s₂, below => by rw [List.nil_append, List.length_nil, Nat.add_zero, climb]
  | d, s :: s₁, s₂, below => by
    rw [List.cons_append, climb, climb, climb_append k (d + 1) s₁ s₂ below, List.length_cons,
      Nat.add_assoc, Nat.add_comm 1]

/-- The climb reads only the bits at the depths it passes, so two keys, of two
types and with two bit functions, that agree there give one climb. -/
theorem climb_congr {κ' : Type*} {bit' : κ' → Nat → Bool} {k : κ} {k' : κ'} :
    ∀ {d d' : Nat} (sibs : List α) (below : α), (∀ i, i < sibs.length → bit k (d + i) = bit' k' (d' + i)) →
      climb node bit k d sibs below = climb node bit' k' d' sibs below
  | _, _, [], _, _ => rfl
  | d, d', s :: sibs, below, hbits => by
    have hrest : climb node bit k (d + 1) sibs below = climb node bit' k' (d' + 1) sibs below :=
      climb_congr sibs below fun i hi => by
        rw [show d + 1 + i = d + (i + 1) by omega, show d' + 1 + i = d' + (i + 1) by omega]
        exact hbits (i + 1) (by simp; omega)
    rw [climb, climb, hrest, show bit k d = bit' k' d' from hbits 0 (by simp)]

/-- The climb as a fold from the bottom: the siblings lowest first, each paired
with the bit of its depth. -/
theorem foldl_zip_eq_climb (k : κ) (d : Nat) :
    ∀ (sibs : List α) (below : α),
      (sibs.zip ((List.range sibs.length).reverse.map fun i => bit k (d + i))).foldl
          (fun h p => if p.2 then node p.1 h else node h p.1) below =
        climb node bit k d sibs.reverse below
  | [], _ => rfl
  | s :: sibs, below => by
    rw [List.length_cons, List.range_succ, List.reverse_append, List.reverse_singleton,
      List.singleton_append, List.map_cons, List.zip_cons_cons, List.foldl_cons,
      foldl_zip_eq_climb k d sibs, List.reverse_cons, climb_append, List.length_reverse, climb, climb]

/-- A climb past one sibling or more ends in a node. -/
theorem climb_cons_eq_node (k : κ) (d : Nat) (s : α) (sibs : List α) (below : α) :
    ∃ a b, climb node bit k d (s :: sibs) below = node a b := by
  rw [climb]
  split
  · exact ⟨_, _, rfl⟩
  · exact ⟨_, _, rfl⟩

section Injective

-- the node hash does not collide
variable (hnode : ∀ a b a' b', node a b = node a' b' → a = a' ∧ b = b')
include hnode

/-- Two climbs along one key to one hash: the shorter starts from the hash the
longer reaches at its length. The induction peels one level off both. -/
theorem climb_eq_climb_of_le (k : κ) :
    ∀ {d : Nat} {s₁ s₂ : List α} {x y : α}, climb node bit k d s₁ x = climb node bit k d s₂ y →
      s₁.length ≤ s₂.length → x = climb node bit k (d + s₁.length) (s₂.drop s₁.length) y
  | d, [], s₂, x, y, h, _ => by rwa [List.length_nil, Nat.add_zero, List.drop_zero, climb] at *
  | _, _ :: _, [], _, _, _, hle => absurd hle (by simp)
  | d, s :: s₁, t :: s₂, x, y, h, hle => by
    have hrest : climb node bit k (d + 1) s₁ x = climb node bit k (d + 1) s₂ y := by
      rw [climb, climb] at h
      split at h
      · exact (hnode _ _ _ _ h).2
      · exact (hnode _ _ _ _ h).1
    rw [climb_eq_climb_of_le k hrest (by simpa using hle), List.length_cons, List.drop_succ_cons,
      Nat.add_assoc, Nat.add_comm 1]

/-- Two climbs along one key to one hash, each from a hash that is not a node,
pass as many siblings and start from one hash. -/
theorem climb_inj_of_not_node (k : κ) {d : Nat} {s₁ s₂ : List α} {x y : α}
    (hx : ∀ a b, node a b ≠ x) (hy : ∀ a b, node a b ≠ y)
    (h : climb node bit k d s₁ x = climb node bit k d s₂ y) : s₁.length = s₂.length ∧ x = y := by
  -- the longer climb, cut at the shorter one's length, must have nothing left
  have hcut : ∀ {s₁ s₂ : List α} {x y : α}, (∀ a b, node a b ≠ x) →
      climb node bit k d s₁ x = climb node bit k d s₂ y → s₁.length ≤ s₂.length →
        s₁.length = s₂.length ∧ x = y := by
    intro s₁ s₂ x y hx h hle
    have hxy := climb_eq_climb_of_le hnode k h hle
    cases hdrop : s₂.drop s₁.length with
    | nil =>
      rw [hdrop, climb] at hxy
      exact ⟨Nat.le_antisymm hle (List.drop_eq_nil_iff.mp hdrop), hxy⟩
    | cons t ts =>
      obtain ⟨a, b, hab⟩ := @climb_cons_eq_node κ α node bit k (d + s₁.length) t ts y
      rw [hdrop, hab] at hxy
      exact absurd hxy.symm (hx a b)
  rcases Nat.le_total s₁.length s₂.length with hle | hle
  · exact hcut hx h hle
  · obtain ⟨hlen, hyx⟩ := hcut hy h.symm hle
    exact ⟨hlen.symm, hyx.symm⟩

end Injective

end AptosCore.SparseMerkle
