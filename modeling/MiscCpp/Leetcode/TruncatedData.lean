import MiscCpp.Leetcode.Serialize

/-!
# Decoding of truncated data

`Binary::deserialize` on any bytes. It does not ask whether `in.read` has succeeded: behind the end
of the data `status`, which is not initialised, has whatever is in its place, and `root->val` keeps
zeros for the bytes that are missing. So the decoder is followed here with its calls of `read` and
for all contents of `status`.

All reads get what they ask for exactly if the data begin with a complete encoding
(`decodesSafely_iff`), and then it is the decoder of the round trip (`deserializeHelper_of_logged`).
-/

open CInt

namespace Serialize.Binary

/-! ### The decoder with its reads -/

/-- A call of `in.read`: the bytes asked for and the bytes that were there. -/
structure Read where
  asked : ℕ
  got : ℕ

/-- As much was read as asked for. -/
def Read.Complete (r : Read) : Prop := r.got = r.asked

/-- `in`, and the calls of `read` so far. -/
structure Decoder where
  input : IStream
  reads : List Read

namespace Decoder

/-- Nothing has been read. -/
def start (data : List UInt8) : Decoder := ⟨⟨data, false⟩, []⟩

/-- Read, and note how much there was. -/
def read (s : Decoder) (n : ℕ) : List UInt8 × Decoder :=
  let (bytes, input) := s.input.read n
  (bytes, ⟨input, s.reads ++ [⟨n, bytes.length⟩]⟩)

/-- `bit ? deserializeHelper() : nullptr` -/
def child (helper : Decoder → Option (BinaryTree CInt × Decoder)) (bit : UInt8) (s : Decoder) :
    Option (BinaryTree CInt × Decoder) :=
  if bit ≠ 0 then helper s else some (.nil, s)

/-- `deserializeHelper`, where `leftover k` is in the place of `status` after `k` reads. -/
def deserializeHelper (leftover : ℕ → UInt8) : ℕ → Decoder → Option (BinaryTree CInt × Decoder)
  | 0, _ => none
  | fuel + 1, s => do
    let (bytes, s) := s.read 1
    let status := bytes.headD (leftover s.reads.length)
    if status &&& ROOT = 0 then some (.nil, s)
    else
      let (bytes, s) := s.read 4
      let val := ofBytes (bytes ++ List.replicate (4 - bytes.length) 0)
      let (left, s) ← child (deserializeHelper leftover fuel) (status &&& LEFT) s
      let (right, s) ← child (deserializeHelper leftover fuel) (status &&& RIGHT) s
      some (.node val left right, s)

end Decoder

/-- Whatever is in `status`, the decoder ends, and each branch and each value comes from bytes that
have been read. -/
def DecodesSafely (data : List UInt8) : Prop :=
  ∀ leftover, ∃ n, ∀ fuel ≥ n, ∃ t s,
    Decoder.deserializeHelper leftover fuel (.start data) = some (t, s) ∧
      ∀ r ∈ s.reads, r.Complete

/-! ### The format -/

/-- A status byte without a node, or one with a node, the value and the children announced. -/
inductive Encoding : List UInt8 → Prop
  | null {status : UInt8} (h : status &&& ROOT = 0) : Encoding [status]
  | node {status : UInt8} {val left right : List UInt8} (h : status &&& ROOT ≠ 0)
    (hval : val.length = 4) (hleft : status &&& LEFT ≠ 0 → Encoding left)
    (hleft₀ : status &&& LEFT = 0 → left = []) (hright : status &&& RIGHT ≠ 0 → Encoding right)
    (hright₀ : status &&& RIGHT = 0 → right = []) :
    Encoding (status :: (val ++ (left ++ right)))

/-- The encoder writes a complete encoding. -/
theorem encoding_serialize (t : BinaryTree CInt) : Encoding (serialize t) := by
  induction t with
  | nil => exact .null rfl
  | node val left right ihl ihr =>
    rw [serialize]
    refine .node (status_root val left right) (length_toBytes val) (fun h ↦ ?_) (fun h ↦ ?_)
      (fun h ↦ ?_) fun h ↦ ?_
    · rwa [if_pos h]
    · rw [if_neg (not_not_intro h)]
    · rwa [if_pos h]
    · rw [if_neg (not_not_intro h)]

variable {leftover : ℕ → UInt8} {data enc rest : List UInt8} {s s' : Decoder} {fuel n : ℕ}
  {t : BinaryTree CInt} {bit : UInt8} {reads : List Read}

/-! ### Complete data -/

theorem Decoder.read_append {bytes : List UInt8} (hn : bytes.length = n) (rest : List UInt8)
    (reads : List Read) : Decoder.read ⟨⟨bytes ++ rest, false⟩, reads⟩ n =
      (bytes, ⟨⟨rest, false⟩, reads ++ [⟨n, n⟩]⟩) := by
  subst hn
  rw [Decoder.read, Binary.read_append]

/-- The decoder reads `enc` and nothing behind it. -/
def Reads (leftover : ℕ → UInt8) (fuel : ℕ) (enc : List UInt8) : Prop :=
  ∀ rest reads, ∃ t rs, Decoder.deserializeHelper leftover fuel ⟨⟨enc ++ rest, false⟩, reads⟩ =
    some (t, ⟨⟨rest, false⟩, reads ++ rs⟩) ∧ ∀ r ∈ rs, r.Complete

theorem Reads.child (h : bit ≠ 0 → Reads leftover fuel enc) (h₀ : bit = 0 → enc = [])
    (rest : List UInt8) (reads : List Read) :
    ∃ t rs, Decoder.child (Decoder.deserializeHelper leftover fuel) bit
        ⟨⟨enc ++ rest, false⟩, reads⟩ = some (t, ⟨⟨rest, false⟩, reads ++ rs⟩) ∧
      ∀ r ∈ rs, r.Complete := by
  rw [Decoder.child]
  by_cases hbit : bit = 0
  · rw [if_neg (not_not_intro hbit), h₀ hbit, List.nil_append]
    exact ⟨.nil, [], by rw [List.append_nil], fun r hr ↦ absurd hr List.not_mem_nil⟩
  · rw [if_pos hbit]
    exact h hbit rest reads

/-- **A complete encoding** is decoded from its own bytes. -/
theorem Encoding.decoded (h : Encoding enc) (hfuel : enc.length ≤ fuel) :
    Reads leftover fuel enc := by
  induction h generalizing fuel with
  | @null status h =>
    obtain ⟨fuel, rfl⟩ := Nat.exists_eq_succ_of_ne_zero (Nat.ne_of_gt hfuel)
    intro rest reads
    have hread := Decoder.read_append (List.length_singleton (a := status)) rest reads
    refine ⟨.nil, [⟨1, 1⟩], ?_, fun r hr ↦ by rw [List.mem_singleton.1 hr]; rfl⟩
    rw [Decoder.deserializeHelper, hread]
    exact if_pos h
  | @node status val left right h hval hleft hleft₀ hright hright₀ ihl ihr =>
    obtain ⟨fuel, rfl⟩ : ∃ k, fuel = k + 1 := ⟨fuel - 1, by rw [List.length_cons] at hfuel; omega⟩
    rw [List.length_cons, List.length_append, List.length_append] at hfuel
    intro rest reads
    have hstatus := Decoder.read_append (List.length_singleton (a := status))
      (val ++ (left ++ (right ++ rest))) reads
    have hvalue := Decoder.read_append hval (left ++ (right ++ rest)) (reads ++ [⟨1, 1⟩])
    have hl_reads : status &&& LEFT ≠ 0 → Reads leftover fuel left := fun hb ↦ ihl hb (by omega)
    have hr_reads : status &&& RIGHT ≠ 0 → Reads leftover fuel right := fun hb ↦ ihr hb (by omega)
    obtain ⟨l, ls, hl, hls⟩ := Reads.child hl_reads hleft₀ (right ++ rest)
      (reads ++ [⟨1, 1⟩] ++ [⟨4, 4⟩])
    obtain ⟨r, rs, hr, hrs⟩ := Reads.child hr_reads hright₀ rest
      (reads ++ [⟨1, 1⟩] ++ [⟨4, 4⟩] ++ ls)
    refine ⟨.node (ofBytes (val ++ List.replicate (4 - val.length) 0)) l r,
      ⟨1, 1⟩ :: ⟨4, 4⟩ :: (ls ++ rs), ?_, ?_⟩
    · simp only [List.append_assoc, List.cons_append, List.nil_append]
        at hstatus hvalue hl hr ⊢
      rw [Decoder.deserializeHelper, hstatus]
      simp only [List.headD_cons, if_neg h, hvalue, hl, hr, Option.bind_eq_bind, Option.bind_some]
    · simp only [List.mem_cons, List.mem_append]
      rintro r (rfl | rfl | hmem | hmem)
      · rfl
      · rfl
      · exact hls r hmem
      · exact hrs r hmem

/-! ### What has been decoded -/

theorem Decoder.reads_read (s : Decoder) (n : ℕ) : s.reads <+: (s.read n).2.reads :=
  List.prefix_append ..

theorem Decoder.read_input {bytes : List UInt8} (h : s.read n = (bytes, s')) :
    s.input.read n = (bytes, s'.input) := by
  obtain ⟨rfl, rfl⟩ := Prod.mk.inj h
  rfl

theorem Decoder.length_read {bytes : List UInt8} (h : s.read n = (bytes, s'))
    (hall : ∀ r ∈ s'.reads, r.Complete) : bytes.length = n := by
  obtain ⟨rfl, rfl⟩ := Prod.mk.inj h
  exact hall _ (List.mem_append_right _ (List.mem_singleton_self _))

/-- A read that gets what it asks for takes it from the data. -/
theorem Decoder.read_eq {bytes : List UInt8} (h : s.read n = (bytes, s'))
    (hfail : s.input.fail = false) (hall : ∀ r ∈ s'.reads, r.Complete) :
    s'.input.fail = false ∧ s.input.data = bytes ++ s'.input.data := by
  have hlen := Decoder.length_read h hall
  have hread := Decoder.read_input h
  rw [IStream.read, if_neg (by rw [hfail]; exact Bool.false_ne_true)] at hread
  by_cases hlt : s.input.data.length < n
  · rw [if_pos hlt] at hread
    obtain ⟨rfl, -⟩ := Prod.mk.inj hread
    exact absurd hlen (Nat.ne_of_lt hlt)
  · rw [if_neg hlt] at hread
    obtain ⟨rfl, hinput⟩ := Prod.mk.inj hread
    rw [← hinput]
    exact ⟨rfl, (List.take_append_drop n _).symm⟩

/-- The two ways a call ends. -/
theorem Decoder.deserializeHelper_succ
    (h : Decoder.deserializeHelper leftover (fuel + 1) s = some (t, s')) :
    ∃ bytes s₁, s.read 1 = (bytes, s₁) ∧
      (bytes.headD (leftover s₁.reads.length) &&& ROOT = 0 ∧ t = .nil ∧ s' = s₁ ∨
        bytes.headD (leftover s₁.reads.length) &&& ROOT ≠ 0 ∧ ∃ val s₂ left s₃ right,
          s₁.read 4 = (val, s₂) ∧
          Decoder.child (Decoder.deserializeHelper leftover fuel)
            (bytes.headD (leftover s₁.reads.length) &&& LEFT) s₂ = some (left, s₃) ∧
          Decoder.child (Decoder.deserializeHelper leftover fuel)
            (bytes.headD (leftover s₁.reads.length) &&& RIGHT) s₃ = some (right, s') ∧
          t = .node (ofBytes (val ++ List.replicate (4 - val.length) 0)) left right) := by
  obtain ⟨bytes, s₁, hread⟩ : ∃ bytes s₁, s.read 1 = (bytes, s₁) := ⟨_, _, rfl⟩
  obtain ⟨val, s₂, hval⟩ : ∃ val s₂, s₁.read 4 = (val, s₂) := ⟨_, _, rfl⟩
  rw [Decoder.deserializeHelper, hread] at h
  refine ⟨bytes, s₁, hread, ?_⟩
  by_cases hroot : bytes.headD (leftover s₁.reads.length) &&& ROOT = 0
  · simp only [if_pos hroot] at h
    obtain ⟨rfl, rfl⟩ := Prod.mk.inj (Option.some.inj h)
    exact .inl ⟨hroot, rfl, rfl⟩
  · simp only [if_neg hroot, hval, Option.bind_eq_bind, Option.bind_eq_some_iff] at h
    obtain ⟨⟨left, s₃⟩, hleft, ⟨right, s₄⟩, hright, heq⟩ := h
    obtain ⟨rfl, rfl⟩ := Prod.mk.inj (Option.some.inj heq)
    exact .inr ⟨hroot, val, s₂, left, s₃, right, hval, hleft, hright, rfl⟩

theorem Decoder.prefix_child {helper : Decoder → Option (BinaryTree CInt × Decoder)}
    (hhelper : ∀ t s s', helper s = some (t, s') → s.reads <+: s'.reads)
    (h : Decoder.child helper bit s = some (t, s')) : s.reads <+: s'.reads := by
  rw [Decoder.child] at h
  split at h
  · exact hhelper t s s' h
  · obtain ⟨-, rfl⟩ := Prod.mk.inj (Option.some.inj h)
    exact List.prefix_rfl

/-- The reads of a call come behind those before. -/
theorem Decoder.prefix_reads (t : BinaryTree CInt) (s s' : Decoder)
    (h : Decoder.deserializeHelper leftover fuel s = some (t, s')) : s.reads <+: s'.reads := by
  induction fuel generalizing s t s' with
  | zero => cases h
  | succ fuel ih =>
    obtain ⟨bytes, s₁, hread, hcase⟩ := Decoder.deserializeHelper_succ h
    have hstatus := s.reads_read 1
    rw [hread] at hstatus
    rcases hcase with ⟨-, -, rfl⟩ | ⟨-, val, s₂, left, s₃, right, hval, hleft, hright, -⟩
    · exact hstatus
    · have hvalue := s₁.reads_read 4
      rw [hval] at hvalue
      exact ((hstatus.trans hvalue).trans (prefix_child ih hleft)).trans (prefix_child ih hright)

/-- The reads of each part of a call are among those of the whole. -/
theorem Decoder.complete_parts {val : List UInt8} {s₁ s₂ s₃ : Decoder} {bit bit' : UInt8}
    {left right : BinaryTree CInt} (hval : s₁.read 4 = (val, s₂))
    (hleft : Decoder.child (Decoder.deserializeHelper leftover fuel) bit s₂ = some (left, s₃))
    (hright : Decoder.child (Decoder.deserializeHelper leftover fuel) bit' s₃ = some (right, s'))
    (hall : ∀ r ∈ s'.reads, r.Complete) :
    (∀ r ∈ s₁.reads, r.Complete) ∧ (∀ r ∈ s₂.reads, r.Complete) ∧
      ∀ r ∈ s₃.reads, r.Complete := by
  have hvalue := s₁.reads_read 4
  rw [hval] at hvalue
  have hpre := Decoder.prefix_child Decoder.prefix_reads hleft
  have hpre' := Decoder.prefix_child Decoder.prefix_reads hright
  exact ⟨fun r hr ↦ hall r (((hvalue.trans hpre).trans hpre').subset hr),
    fun r hr ↦ hall r ((hpre.trans hpre').subset hr),
    fun r hr ↦ hall r (hpre'.subset hr)⟩

/-- **What the decoder has read**, when all reads have got what they ask for, is an encoding. -/
theorem Decoder.exists_encoding (h : Decoder.deserializeHelper leftover fuel s = some (t, s'))
    (hfail : s.input.fail = false) (hall : ∀ r ∈ s'.reads, r.Complete) :
    ∃ enc, Encoding enc ∧ s.input.data = enc ++ s'.input.data ∧ s'.input.fail = false := by
  induction fuel generalizing s t s' with
  | zero => cases h
  | succ fuel ih =>
    have hchild : ∀ {bit t s s'}, Decoder.child (Decoder.deserializeHelper leftover fuel) bit s =
        some (t, s') → s.input.fail = false → (∀ r ∈ s'.reads, r.Complete) →
          ∃ enc, (bit ≠ 0 → Encoding enc) ∧ (bit = 0 → enc = []) ∧
            s.input.data = enc ++ s'.input.data ∧ s'.input.fail = false := by
      intro bit t s s' h hfail hall
      rw [Decoder.child] at h
      split at h
      next hbit =>
        obtain ⟨enc, henc, hdata, hfail'⟩ := ih h hfail hall
        exact ⟨enc, fun _ ↦ henc, fun h ↦ absurd h hbit, hdata, hfail'⟩
      next hbit =>
        obtain ⟨-, rfl⟩ := Prod.mk.inj (Option.some.inj h)
        exact ⟨[], fun h ↦ absurd h hbit, fun _ ↦ rfl, rfl, hfail⟩
    obtain ⟨bytes, s₁, hread, hcase⟩ := Decoder.deserializeHelper_succ h
    rcases hcase with ⟨hroot, -, rfl⟩ | ⟨hroot, val, s₂, left, s₃, right, hval, hleft, hright, -⟩
    · obtain ⟨hfail₁, hdata⟩ := Decoder.read_eq hread hfail hall
      obtain ⟨status, rfl⟩ := List.length_eq_one_iff.1 (Decoder.length_read hread hall)
      exact ⟨[status], .null hroot, hdata, hfail₁⟩
    · obtain ⟨hall₁, hall₂, hall₃⟩ := Decoder.complete_parts hval hleft hright hall
      obtain ⟨hfail₁, hdata⟩ := Decoder.read_eq hread hfail hall₁
      obtain ⟨status, rfl⟩ := List.length_eq_one_iff.1 (Decoder.length_read hread hall₁)
      obtain ⟨hfail₂, hdata₂⟩ := Decoder.read_eq hval hfail₁ hall₂
      obtain ⟨l, hl, hl₀, hdata₃, hfail₃⟩ := hchild hleft hfail₂ hall₃
      obtain ⟨r, hr, hr₀, hdata', hfail'⟩ := hchild hright hfail₃ hall
      refine ⟨_, .node hroot (Decoder.length_read hval hall₂) hl hl₀ hr hr₀, ?_, hfail'⟩
      rw [hdata, hdata₂, hdata₃, hdata']
      simp only [List.headD_cons, List.cons_append, List.nil_append, List.append_assoc]

/-- With complete reads it is the decoder of the round trip. -/
theorem deserializeHelper_of_logged
    (h : Decoder.deserializeHelper leftover fuel s = some (t, s'))
    (hall : ∀ r ∈ s'.reads, r.Complete) :
    deserializeHelper fuel s.input = some (t, s'.input) := by
  induction fuel generalizing s t s' with
  | zero => cases h
  | succ fuel ih =>
    have hchild : ∀ {bit t s s'}, Decoder.child (Decoder.deserializeHelper leftover fuel) bit s =
        some (t, s') → (∀ r ∈ s'.reads, r.Complete) →
          readChild (deserializeHelper fuel) bit s.input = some (t, s'.input) := by
      intro bit t s s' h hall
      rw [Decoder.child] at h
      rw [readChild]
      split at h
      next hbit => rw [if_pos hbit, ih h hall]
      next hbit =>
        obtain ⟨rfl, rfl⟩ := Prod.mk.inj (Option.some.inj h)
        rw [if_neg hbit]
    obtain ⟨bytes, s₁, hread, hcase⟩ := Decoder.deserializeHelper_succ h
    rw [deserializeHelper, Decoder.read_input hread]
    rcases hcase with
      ⟨hroot, rfl, rfl⟩ | ⟨hroot, val, s₂, left, s₃, right, hval, hleft, hright, rfl⟩
    · obtain ⟨status, rfl⟩ := List.length_eq_one_iff.1 (Decoder.length_read hread hall)
      exact if_pos hroot
    · obtain ⟨hall₁, hall₂, hall₃⟩ := Decoder.complete_parts hval hleft hright hall
      obtain ⟨status, rfl⟩ := List.length_eq_one_iff.1 (Decoder.length_read hread hall₁)
      rw [List.headD_cons] at hroot hleft hright
      simp only [List.head?_cons, Option.bind_eq_bind, Option.bind_some, if_neg hroot,
        Decoder.read_input hval, hchild hleft hall₃, hchild hright hall]

/-- **Which data are decoded safely.** Those that begin with a complete encoding. -/
theorem decodesSafely_iff (data : List UInt8) :
    DecodesSafely data ↔ ∃ enc, Encoding enc ∧ enc <+: data := by
  constructor
  · intro h
    obtain ⟨n, hn⟩ := h fun _ ↦ 0
    obtain ⟨t, s, hrun, hall⟩ := hn n le_rfl
    obtain ⟨enc, henc, hdata, -⟩ := Decoder.exists_encoding hrun rfl hall
    exact ⟨enc, henc, s.input.data, hdata.symm⟩
  · rintro ⟨enc, henc, rest, rfl⟩ leftover
    refine ⟨enc.length, fun fuel hfuel ↦ ?_⟩
    obtain ⟨t, rs, hrun, hall⟩ := henc.decoded hfuel rest []
    exact ⟨t, _, hrun, hall⟩

/-- A node with a left child, which is missing: the status byte of the child is not read. -/
theorem not_forall_decodesSafely : ¬ ∀ data, DecodesSafely data := by
  intro h
  obtain ⟨n, hn⟩ := h [3, 1, 0, 0, 0] fun _ ↦ 0
  obtain ⟨t, s, hrun, hall⟩ := hn (n + 2) (Nat.le_add_right n 2)
  have hmissing : Decoder.deserializeHelper (fun _ ↦ 0) (n + 2) (.start [3, 1, 0, 0, 0]) =
      some (.node (wrap 1) .nil .nil, ⟨⟨[], true⟩, [⟨1, 1⟩, ⟨4, 4⟩, ⟨1, 0⟩]⟩) := rfl
  obtain ⟨-, rfl⟩ := Prod.mk.inj (Option.some.inj (hmissing.symm.trans hrun))
  have hstatus : Read.Complete ⟨1, 0⟩ := hall ⟨1, 0⟩ (by simp)
  cases hstatus

end Serialize.Binary
