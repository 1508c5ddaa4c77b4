import MiscCpp.Library.CInt
import MiscCpp.Library.TreeCover

/-!
# Cameras in a binary tree

`minCameraCover` of `leetcode/tree/treeCameras.cc`, with the overflow of the number of cameras.

The cameras that are placed cover the tree (`placed`), and no cover has fewer nodes, not even one
that leaves out the root (`needs`). For each state of the root, the second fact also says what a
cover costs that does more than the cameras of the subtree do.
-/

open CInt LinkedTree TreeCover

namespace TreeCameras

inductive State
  | NONE
  | COVERED
  | CAMERA
  deriving DecidableEq

variable {ι : Type*}

/-- `dfs`, with the value of `res` before and after it. -/
def dfs : BinaryTree ι → ℤ → Option (State × ℤ)
  | .nil, res => some (.COVERED, res)
  | .node _ left right, res => do
    let (l, res) ← dfs left res
    let (r, res) ← dfs right res
    if l = .NONE ∨ r = .NONE then some (.CAMERA, ← fit (res + 1))
    else if l = .CAMERA ∨ r = .CAMERA then some (.COVERED, res)
    else some (.NONE, res)

def minCameraCover (root : BinaryTree ι) : Option ℤ := do
  let (state, res) ← dfs root 0
  if state = .NONE then fit (res + 1) else some res

example : minCameraCover (.node 0 (.node 1 (.node 2 .nil .nil) (.node 3 .nil .nil)) .nil) =
    some 1 := by decide

/-! ### The cameras -/

/-- The state of a node, from the states of its children. -/
def above (l r : State) : State :=
  if l = .NONE ∨ r = .NONE then .CAMERA
  else if l = .CAMERA ∨ r = .CAMERA then .COVERED
  else .NONE

/-- The state of the root. -/
def state : BinaryTree ι → State
  | .nil => .COVERED
  | .node _ l r => above (state l) (state r)

/-- How often `res` is incremented. -/
def number : BinaryTree ι → ℕ
  | .nil => 0
  | .node _ l r => number l + number r + if above (state l) (state r) = .CAMERA then 1 else 0

variable {t l r : BinaryTree ι} {S : Finset ι} {a : ι} {x y : State} {res : ℤ}

theorem above_eq_camera : above x y = .CAMERA ↔ x = .NONE ∨ y = .NONE := by
  cases x <;> cases y <;> decide

theorem above_eq_none : above x y = .NONE ↔ x = .COVERED ∧ y = .COVERED := by
  cases x <;> cases y <;> decide

/-- **The run** of `dfs` is defined exactly if there is no overflow. -/
theorem dfs_eq (hres : 0 ≤ res) (hlt : res < 2 ^ 31) (t : BinaryTree ι) :
    dfs t res = if res + number t < 2 ^ 31 then some (state t, res + number t) else none := by
  induction t generalizing res with
  | nil =>
    have hadd : res + (number (.nil : BinaryTree ι) : ℤ) = res := add_zero res
    rw [hadd, if_pos hlt]
    rfl
  | node a l r ihl ihr =>
    rw [dfs, ihl hres hlt, number, state]
    by_cases hl : res + number l < 2 ^ 31
    · rw [if_pos hl, Option.bind_eq_bind, Option.bind_some]
      dsimp only
      rw [ihr (by omega) hl]
      by_cases hr : res + number l + number r < 2 ^ 31
      · rw [if_pos hr, Option.bind_some]
        dsimp only
        by_cases hcamera : above (state l) (state r) = .CAMERA
        · rw [if_pos hcamera, if_pos (above_eq_camera.1 hcamera), hcamera]
          by_cases hfit : res + number l + number r + 1 < 2 ^ 31
          · rw [fit_eq (by omega), if_pos (by omega), Option.bind_eq_bind, Option.bind_some,
              Option.some_inj, Prod.mk.injEq]
            exact ⟨rfl, by omega⟩
          · rw [fit_eq_none (by omega), if_neg (by omega)]
            rfl
        · have hnone := mt above_eq_camera.2 hcamera
          have hfit : res + ((number l + number r + 0 : ℕ) : ℤ) < 2 ^ 31 := by omega
          have hsum : res + number l + number r = res + ((number l + number r + 0 : ℕ) : ℤ) := by
            omega
          rw [if_neg hcamera, if_neg hnone, if_pos hfit, above, if_neg hnone, hsum]
          split <;> rfl
      · rw [if_neg hr, if_neg (by omega)]
        rfl
    · rw [if_neg hl, if_neg (by omega)]
      rfl

/-- Cameras for the whole tree. -/
def total (t : BinaryTree ι) : ℕ := number t + if state t = .NONE then 1 else 0

theorem minCameraCover_eq (t : BinaryTree ι) :
    minCameraCover t = if total t < 2 ^ 31 then some ↑(total t) else none := by
  rw [minCameraCover, dfs_eq le_rfl (by decide), zero_add, total]
  by_cases hlt : (number t : ℤ) < 2 ^ 31
  · rw [if_pos hlt, Option.bind_eq_bind, Option.bind_some]
    dsimp only
    by_cases hnone : state t = .NONE
    · rw [if_pos hnone, if_pos hnone]
      by_cases hfit : number t + 1 < 2 ^ 31
      · rw [if_pos hfit, fit_eq (by omega), Int.natCast_succ]
      · rw [if_neg hfit, fit_eq_none (by omega)]
    · rw [if_neg hnone, if_neg hnone, add_zero, if_pos (by omega)]
  · rw [if_neg hlt, if_neg (by omega)]
    rfl

/-! ### A lower bound -/

variable [DecidableEq ι]

/-- What the cameras of a set do in the tree takes at least as many as are placed. -/
structure Needs (t : BinaryTree ι) : Prop where
  spares : ∀ S, Spares t S → number t ≤ count t S
  cover : state t = .NONE → ∀ S, IsCover t S → number t < count t S
  root : state t ≠ .CAMERA → ∀ S, Spares t S → (∃ b ∈ root t, b ∈ S) → number t < count t S

theorem Needs.node (hnodup : (inorder (.node a l r)).Nodup) (hl : Needs l) (hr : Needs r) :
    Needs (.node a l r) := by
  have hsum (S : Finset ι) (hS : Spares (.node a l r) S) (ha : a ∈ S) :
      number l + number r < count (.node a l r) S := by
    have hle_l := hl.spares S (hS.left hnodup)
    have hle_r := hr.spares S (hS.right hnodup)
    rw [count_node, if_pos ha]
    omega
  refine ⟨fun S hS ↦ ?_, fun hnone S hS ↦ ?_, fun hcamera S hS hroot ↦ ?_⟩
  · rw [number]
    by_cases ha : a ∈ S
    · have hlt := hsum S hS ha
      split <;> omega
    · have hcl := hS.isCover_left hnodup ha
      have hcr := hS.isCover_right hnodup ha
      have hle_l := hl.spares S hcl.spares
      have hle_r := hr.spares S hcr.spares
      rw [count_node, if_neg ha]
      split
      next hcamera =>
        -- A subtree whose root is not covered by its own cameras needs one more.
        rcases above_eq_camera.1 hcamera with hnone | hnone
        · have hlt := hl.cover hnone S hcl
          omega
        · have hlt := hr.cover hnone S hcr
          omega
      next => omega
  · obtain ⟨hstate_l, hstate_r⟩ := above_eq_none.1 hnone
    rw [number, hstate_l, hstate_r, if_neg (by decide), add_zero]
    -- Without a camera at the root, one child has one, which none of the placed ones is.
    by_cases ha : a ∈ S
    · exact hsum S hS.spares ha
    · have hspares_l := (hS.spares.isCover_left hnodup ha).spares
      have hspares_r := (hS.spares.isCover_right hnodup ha).spares
      have hle_l := hl.spares S hspares_l
      have hle_r := hr.spares S hspares_r
      rw [count_node, if_neg ha]
      rcases hS.exists_child hnodup ha with hchild | hchild
      · have hlt := hl.root (by rw [hstate_l]; decide) S hspares_l hchild
        omega
      · have hlt := hr.root (by rw [hstate_r]; decide) S hspares_r hchild
        omega
  · obtain ⟨b, hb, hbS⟩ := hroot
    obtain rfl := Option.some.inj hb
    rw [number, if_neg (show above (state l) (state r) ≠ .CAMERA from hcamera), add_zero]
    exact hsum S hS hbS

/-- **No cover** has fewer cameras. -/
theorem needs (hnodup : (inorder t).Nodup) : Needs t := by
  induction t with
  | nil =>
    refine ⟨fun S _ ↦ Nat.zero_le _, fun h ↦ State.noConfusion h, fun _ S _ hroot ↦ ?_⟩
    obtain ⟨b, hb, -⟩ := hroot
    cases hb
  | node a l r ihl ihr =>
    obtain ⟨hnodup_l, hnodup_r, -⟩ := nodup_node.1 hnodup
    exact Needs.node hnodup (ihl hnodup_l) (ihr hnodup_r)

theorem total_le_card (hnodup : (inorder t).Nodup) (hS : IsCover t S) : total t ≤ S.card := by
  refine le_trans ?_ (count_le_card hnodup S)
  rw [total]
  split
  next hnone => exact (needs hnodup).cover hnone S hS
  next => exact (needs hnodup).spares S hS.spares

/-! ### A cover -/

/-- The cameras that are placed below the root or at it. -/
def cameras : BinaryTree ι → Finset ι
  | .nil => ∅
  | .node a l r =>
    if above (state l) (state r) = .CAMERA then insert a (cameras l ∪ cameras r)
    else cameras l ∪ cameras r

/-- The cameras cover all nodes but a root without one. -/
structure Placed (t : BinaryTree ι) : Prop where
  mem : ∀ a ∈ cameras t, a ∈ inorder t
  card : (cameras t).card ≤ number t
  covers : ∀ b ∈ inorder t, (b ∈ root t → state t ≠ .NONE) → Covers t (cameras t) b
  camera : state t = .CAMERA → ∃ b ∈ root t, b ∈ cameras t

theorem subset_cameras_node (a : ι) (l r : BinaryTree ι) :
    cameras l ∪ cameras r ⊆ cameras (.node a l r) := by
  rw [cameras]
  split
  next => exact Finset.subset_insert a _
  next => exact subset_rfl

/-- A node that is not covered is the root, and without a camera. -/
theorem Placed.covers_or (h : Placed t) (ha : a ∈ inorder t) :
    Covers t (cameras t) a ∨ a ∈ root t ∧ state t = .NONE := by
  by_cases hne : a ∈ root t → state t ≠ .NONE
  · exact Or.inl (h.covers a ha hne)
  · obtain ⟨hroot, hnone⟩ := Classical.not_imp.1 hne
    exact Or.inr ⟨hroot, not_not.1 hnone⟩

theorem Placed.node (hl : Placed l) (hr : Placed r) : Placed (.node a l r) := by
  have hsub_l := Finset.subset_union_left.trans (subset_cameras_node a l r)
  have hsub_r := Finset.subset_union_right.trans (subset_cameras_node a l r)
  have hroot (h : state (.node a l r) = .CAMERA) : a ∈ cameras (.node a l r) := by
    rw [cameras, if_pos (show above (state l) (state r) = .CAMERA from h)]
    exact Finset.mem_insert_self a _
  refine ⟨fun b hb ↦ ?_, ?_, fun b hb hne ↦ ?_, fun h ↦ ⟨a, rfl, hroot h⟩⟩
  · have hmem (h : b ∈ cameras l ∪ cameras r) : b ∈ inorder (.node a l r) := by
      rcases Finset.mem_union.1 h with h | h
      · exact List.mem_append_left _ (hl.mem b h)
      · exact List.mem_append_right _ (List.mem_cons_of_mem a (hr.mem b h))
    rw [cameras] at hb
    split at hb
    · rcases Finset.mem_insert.1 hb with rfl | hb
      · exact List.mem_append_right _ List.mem_cons_self
      · exact hmem hb
    · exact hmem hb
  · have hunion := Finset.card_union_le (cameras l) (cameras r)
    have hcard_l := hl.card
    have hcard_r := hr.card
    rw [cameras, number]
    split
    · have hinsert := Finset.card_insert_le a (cameras l ∪ cameras r)
      omega
    · omega
  · rcases List.mem_append.1 hb with hb | hb
    · rcases hl.covers_or hb with hcovers | ⟨hb, hnone⟩
      · exact hcovers.left.mono hsub_l
      · exact Or.inr ⟨a, hroot (above_eq_camera.2 (Or.inl hnone)), Or.inl (Or.inl ⟨rfl, Or.inl hb⟩)⟩
    rcases List.mem_cons.1 hb with rfl | hb
    · -- The root has a camera, or one of its children has.
      cases hstate : state (.node b l r) with
      | NONE => exact absurd hstate (hne rfl)
      | CAMERA => exact Or.inl (hroot hstate)
      | COVERED =>
        rw [state, above] at hstate
        split at hstate
        · cases hstate
        split at hstate
        next hcamera =>
          rcases hcamera with hcamera | hcamera
          · obtain ⟨c, hc, hmem⟩ := hl.camera hcamera
            exact Or.inr ⟨c, hsub_l hmem, Or.inr (Or.inl ⟨rfl, Or.inl hc⟩)⟩
          · obtain ⟨c, hc, hmem⟩ := hr.camera hcamera
            exact Or.inr ⟨c, hsub_r hmem, Or.inr (Or.inl ⟨rfl, Or.inr hc⟩)⟩
        next => cases hstate
    · rcases hr.covers_or hb with hcovers | ⟨hb, hnone⟩
      · exact hcovers.right.mono hsub_r
      · exact Or.inr ⟨a, hroot (above_eq_camera.2 (Or.inr hnone)), Or.inl (Or.inl ⟨rfl, Or.inr hb⟩)⟩

theorem placed (t : BinaryTree ι) : Placed t := by
  induction t with
  | nil =>
    exact ⟨fun a ha ↦ absurd ha (Finset.notMem_empty a), le_rfl,
      fun b hb ↦ absurd hb List.not_mem_nil, fun h ↦ State.noConfusion h⟩
  | node a l r ihl ihr => exact ihl.node ihr

/-- The sizes of the covers. -/
def sizes (t : NodeTree ι) : Set ℕ :=
  {k | ∃ S : Finset ι, (∀ a ∈ S, a ∈ inorder t.1) ∧ IsCover t.1 S ∧ S.card = k}

/-- **The cameras** are a least cover. -/
theorem isLeast_total (t : NodeTree ι) : IsLeast (sizes t) (total t.1) := by
  have hlower : total t.1 ∈ lowerBounds (sizes t) := by
    rintro k ⟨S, -, hS, rfl⟩
    exact total_le_card t.2 hS
  have hplaced := placed t.1
  refine ⟨?_, hlower⟩
  obtain ⟨S, hmem, hS, hcard⟩ : ∃ S : Finset ι, (∀ a ∈ S, a ∈ inorder t.1) ∧ IsCover t.1 S ∧
      S.card ≤ total t.1 := by
    rw [total]
    -- A root that is not covered gets a camera at the end.
    by_cases hnone : state t.1 = .NONE
    · cases hroot : root t.1 with
      | none =>
        refine ⟨cameras t.1, hplaced.mem, fun b hb ↦ hplaced.covers b hb fun h ↦ ?_,
          hplaced.card.trans (Nat.le_add_right _ _)⟩
        rw [hroot] at h
        cases h
      | some a =>
        refine ⟨insert a (cameras t.1), fun b hb ↦ ?_, fun b hb ↦ ?_, ?_⟩
        · rcases Finset.mem_insert.1 hb with rfl | hb
          · exact mem_of_mem_root hroot
          · exact hplaced.mem b hb
        · by_cases hba : b = a
          · exact Or.inl (hba ▸ Finset.mem_insert_self b _)
          · refine (hplaced.covers b hb fun h ↦ ?_).mono (Finset.subset_insert a _)
            exact absurd (Option.some.inj (h.symm.trans hroot)) hba
        · rw [if_pos hnone]
          exact (Finset.card_insert_le a _).trans (Nat.succ_le_succ hplaced.card)
    · exact ⟨cameras t.1, hplaced.mem, fun b hb ↦ hplaced.covers b hb fun _ ↦ hnone,
        hplaced.card.trans (Nat.le_add_right _ _)⟩
  exact ⟨S, hmem, hS, le_antisymm hcard (hlower ⟨S, hmem, hS, rfl⟩)⟩

/-! ### The function -/

/-- The least number of cameras is returned. -/
def FindsMinCover (t : NodeTree ι) : Prop :=
  ∃ k : ℕ, minCameraCover t.1 = some ↑k ∧ IsLeast (sizes t) k

/-- **`minCameraCover`** returns the least number exactly if it is a value of an `int`. -/
theorem minCameraCover_iff (t : NodeTree ι) :
    FindsMinCover t ↔
      ∃ S : Finset ι, (∀ a ∈ S, a ∈ inorder t.1) ∧ IsCover t.1 S ∧ S.card < 2 ^ 31 := by
  have hleast := isLeast_total t
  constructor
  · rintro ⟨k, hk, -⟩
    rw [minCameraCover_eq] at hk
    split at hk
    next hlt =>
      obtain ⟨S, hmem, hS, hcard⟩ := hleast.1
      exact ⟨S, hmem, hS, hcard ▸ hlt⟩
    next => cases hk
  · rintro ⟨S, hmem, hS, hlt⟩
    refine ⟨total t.1, ?_, hleast⟩
    rw [minCameraCover_eq, if_pos ((hleast.2 ⟨S, hmem, hS, rfl⟩).trans_lt hlt)]

/-- A chain of `n` nodes. -/
def chain : ℕ → BinaryTree ℕ
  | 0 => .nil
  | n + 1 => .node n .nil (chain n)

theorem mem_chain {n a : ℕ} (ha : a ∈ inorder (chain n)) : a < n := by
  induction n with
  | zero => cases ha
  | succ n ih =>
    rcases List.mem_cons.1 ha with rfl | ha
    · exact Nat.lt_succ_self a
    · exact (ih ha).trans (Nat.lt_succ_self n)

theorem nodup_chain (n : ℕ) : (inorder (chain n)).Nodup := by
  induction n with
  | zero => exact List.nodup_nil
  | succ n ih => exact List.nodup_cons.2 ⟨fun h ↦ Nat.lt_irrefl n (mem_chain h), ih⟩

/-- Every third node of a chain has a camera. -/
theorem state_chain (n : ℕ) : state (chain (3 * n)) = .COVERED ∧ number (chain (3 * n)) = n := by
  induction n with
  | zero => exact ⟨rfl, rfl⟩
  | succ n ih =>
    obtain ⟨hstate, hnumber⟩ := ih
    simp only [Nat.mul_succ, chain, state, number, hstate, hnumber]
    exact ⟨by decide, by rw [if_neg (by decide), if_pos (by decide), if_neg (by decide)]; omega⟩

/-- A chain of `3 * 2 ^ 31` nodes. -/
theorem not_forall_findsMinCover : ¬ ∀ t : NodeTree ℕ, FindsMinCover t := by
  intro h
  obtain ⟨n, hn⟩ : ∃ n, 2 ^ 31 = n := ⟨_, rfl⟩
  obtain ⟨k, hk, -⟩ := h ⟨chain (3 * n), nodup_chain _⟩
  obtain ⟨hstate, hnumber⟩ := state_chain n
  rw [minCameraCover_eq, if_neg] at hk
  · cases hk
  · rw [total, hnumber]
    omega

end TreeCameras
