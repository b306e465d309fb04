import Mathlib.Algebra.Group.Nat.Defs
import HyperQuery.Plan.Explain
import HyperQuery.Proofs.Text

/-!
# Streams of explained plans

What is hashed of an explained plan is the text of each operator and its properties, the number of its inputs, and the
inputs. The names of operators are no beginnings of each other, so a stream shows its first operator
(`op_eq_of_stream_append_eq`), and the text that follows it ends where the number of inputs has its first zero byte, as
long as it has no NUL itself and the number fits in a byte (`stream_append_inj`).
-/

namespace HyperQuery

open Text (NulFree)

/-! ### Bytes of texts -/

theorem ByteArray.toList_loop (bytes : ByteArray) (i : Nat) (acc : List UInt8) :
    ByteArray.toList.loop bytes i acc = acc.reverse ++ bytes.data.toList.drop i := by
  fun_induction ByteArray.toList.loop bytes i acc with
  | case1 i acc h ih =>
    rw [ih, List.drop_eq_getElem_cons (l := bytes.data.toList) (i := i) (by simpa using h)]
    simp [ByteArray.get!, getElem!_pos bytes.data i h]
  | case2 i acc h =>
    rw [List.drop_of_length_le (by simpa using h), List.append_nil]


namespace ExplainNode

/-- The bytes of characters. -/
def bytes (l : List Char) : List UInt8 := l.flatMap String.utf8EncodeChar

theorem toByteArray_bytes (l : List Char) : (bytes l).toByteArray = (String.ofList l).toByteArray := by
  rw [String.toByteArray_ofList, bytes, List.utf8Encode]

theorem textBytes_eq (s : String) : textBytes s = bytes s.toList := by
  unfold textBytes ByteArray.toList
  rw [ByteArray.toList_loop, String.toUTF8, ← String.utf8Encode_toList, List.utf8Encode, List.toList_data_toByteArray]
  rfl

theorem bytes_append (l m : List Char) : bytes (l ++ m) = bytes l ++ bytes m := List.flatMap_append

theorem bytes_inj {l m : List Char} (h : bytes l = bytes m) : l = m := by
  have hstrings : String.ofList l = String.ofList m := by
    rw [← String.toByteArray_inj, ← toByteArray_bytes, ← toByteArray_bytes, h]
  exact String.ofList_injective hstrings

/-- Only the character NUL has a byte that is zero. -/
theorem zero_notMem_bytes {l : List Char} (h : '\x00' ∉ l) : 0 ∉ bytes l := by
  intro hzero
  obtain ⟨c, hc, hmem⟩ := List.mem_flatMap.mp hzero
  have hnul : c.val.toNat ≠ 0 := fun hval => h (by
    have : c = '\x00' := Char.ext (UInt32.toNat_inj.mp hval)
    exact this ▸ hc)
  have hbyte : ∀ n, (0 : UInt8) = UInt8.ofNat n → n % 256 = 0 := fun n hn => by
    simpa using (congrArg UInt8.toNat hn).symm
  unfold String.utf8EncodeChar at hmem
  dsimp only at hmem
  split at hmem
  · have := hbyte _ (List.mem_singleton.mp hmem)
    omega
  · split at hmem
    · simp only [List.mem_cons, List.not_mem_nil, or_false] at hmem
      rcases hmem with hmem | hmem <;> have := hbyte _ hmem <;> omega
    · split at hmem
      · simp only [List.mem_cons, List.not_mem_nil, or_false] at hmem
        rcases hmem with hmem | hmem | hmem <;> have := hbyte _ hmem <;> omega
      · simp only [List.mem_cons, List.not_mem_nil, or_false] at hmem
        rcases hmem with hmem | hmem | hmem | hmem <;> have := hbyte _ hmem <;> omega

theorem countBytes_eq (n : Nat) :
    countBytes n = [UInt8.ofNat n, UInt8.ofNat (n / 2 ^ 8), UInt8.ofNat (n / 2 ^ 16), UInt8.ofNat (n / 2 ^ 24),
      UInt8.ofNat (n / 2 ^ 32), UInt8.ofNat (n / 2 ^ 40), UInt8.ofNat (n / 2 ^ 48), UInt8.ofNat (n / 2 ^ 56)] := by
  have hrange : List.range 8 = [0, 1, 2, 3, 4, 5, 6, 7] := rfl
  simp [countBytes, hrange, Nat.shiftRight_eq_div_pow]

theorem countBytes_of_lt {n : Nat} (h : n < 256) : countBytes n = UInt8.ofNat n :: List.replicate 7 0 := by
  have hzero : ∀ k, 8 ≤ k → n / 2 ^ k = 0 := fun k hk =>
    Nat.div_eq_of_lt (Nat.lt_of_lt_of_le h (Nat.pow_le_pow_right (show 0 < 2 by decide) hk))
  rw [countBytes_eq]
  simp only [hzero _ (by decide : 8 ≤ 8), hzero _ (by decide : 8 ≤ 16), hzero _ (by decide : 8 ≤ 24),
    hzero _ (by decide : 8 ≤ 32), hzero _ (by decide : 8 ≤ 40), hzero _ (by decide : 8 ≤ 48),
    hzero _ (by decide : 8 ≤ 56)]
  rfl

theorem length_countBytes (n : Nat) : (countBytes n).length = 8 := by simp [countBytes]

theorem countBytes_inj {m n : Nat} (hm : m < 2 ^ 64) (hn : n < 2 ^ 64) (h : countBytes m = countBytes n) : m = n := by
  have hbyte : ∀ k l : Nat, UInt8.ofNat k = UInt8.ofNat l → k % 256 = l % 256 := fun k l hkl => by
    simpa using congrArg UInt8.toNat hkl
  rw [countBytes_eq, countBytes_eq] at h
  simp only [List.cons.injEq, and_true] at h
  obtain ⟨h0, h1, h2, h3, h4, h5, h6, h7⟩ := h
  have h0 := hbyte _ _ h0
  have h1 := hbyte _ _ h1
  have h2 := hbyte _ _ h2
  have h3 := hbyte _ _ h3
  have h4 := hbyte _ _ h4
  have h5 := hbyte _ _ h5
  have h6 := hbyte _ _ h6
  have h7 := hbyte _ _ h7
  omega

/-! ### Nodes -/

/-- The operator and its properties as they stand in the stream. -/
def heading : ExplainNode → List Char
  | .node op props _ => op.toList ++ props.flatMap fun p => p.key.toList ++ p.value.toList

def inputs : ExplainNode → List ExplainNode
  | .node _ _ inputs => inputs

def op : ExplainNode → String
  | .node op _ _ => op

theorem stream_eq (n : ExplainNode) :
    n.stream = bytes n.heading ++ (countBytes n.inputs.length ++ streamAll n.inputs) := by
  cases n with
  | node op props inputs =>
    have hprops : props.flatMap (fun p => textBytes p.key ++ textBytes p.value) =
        bytes (props.flatMap fun p => p.key.toList ++ p.value.toList) := by
      simp only [bytes, List.flatMap_assoc, textBytes_eq, List.flatMap_append]
    rw [stream, hprops, textBytes_eq, heading, bytes_append, List.append_assoc, List.append_assoc, List.append_assoc]
    rfl

theorem nul_notMem_heading {op : String} {props : List ExplainProp} {inputs : List ExplainNode} (hop : NulFree op)
    (hprops : ∀ p ∈ props, NulFree p.key ∧ NulFree p.value) : '\x00' ∉ heading (.node op props inputs) := by
  rw [heading, List.mem_append, List.mem_flatMap]
  rintro (h | ⟨p, hp, h⟩)
  · exact hop h
  · rcases List.mem_append.mp h with h | h
    · exact (hprops p hp).1 h
    · exact (hprops p hp).2 h

/-- A heading without NUL ends where the count of the inputs, if that is a single byte, has its first zero. -/
theorem stream_append_inj {m n : ExplainNode} {r r' : List UInt8} (hm : '\x00' ∉ m.heading) (hn : '\x00' ∉ n.heading)
    (hlen : m.inputs.length = n.inputs.length) (hlt : m.inputs.length < 256) (h : m.stream ++ r = n.stream ++ r') :
    m.heading = n.heading ∧ streamAll m.inputs ++ r = streamAll n.inputs ++ r' := by
  have hm := zero_notMem_bytes hm
  have hn := zero_notMem_bytes hn
  rw [stream_eq, stream_eq, ← hlen, countBytes_of_lt hlt, List.append_assoc, List.append_assoc, List.append_assoc,
    List.append_assoc] at h
  rcases Nat.eq_zero_or_pos m.inputs.length with hzero | hpos
  · rw [hzero] at h
    obtain ⟨hheading, hrest⟩ := Text.append_cons_inj hm hn h
    exact ⟨bytes_inj hheading, List.append_cancel_left hrest⟩
  · obtain ⟨b, hb⟩ : ∃ b, UInt8.ofNat m.inputs.length = b := ⟨_, rfl⟩
    have hb0 : (0 : UInt8) ≠ b := by
      rintro rfl
      have := congrArg UInt8.toNat hb
      simp at this
      omega
    rw [hb] at h
    have hcount : ∀ l s : List UInt8,
        l ++ ((b :: List.replicate 7 0) ++ s) = (l ++ [b]) ++ 0 :: (List.replicate 6 0 ++ s) := by
      intro l s
      simp [List.replicate_succ]
    have hfree : ∀ {l : List UInt8}, 0 ∉ l → 0 ∉ l ++ [b] := fun hl => by simp [hl, hb0]
    rw [hcount, hcount] at h
    obtain ⟨hheading, hrest⟩ := Text.append_cons_inj (hfree hm) (hfree hn) h
    exact ⟨bytes_inj (List.append_cancel_right hheading), List.append_cancel_left hrest⟩

theorem leaf_append_inj {m n : ExplainNode} {r r' : List UInt8} (hm : '\x00' ∉ m.heading) (hn : '\x00' ∉ n.heading)
    (hm' : m.inputs = []) (hn' : n.inputs = []) (h : m.stream ++ r = n.stream ++ r') :
    m.heading = n.heading ∧ r = r' := by
  obtain ⟨hheading, hrest⟩ := stream_append_inj hm hn (by rw [hm', hn']) (by simp [hm']) h
  exact ⟨hheading, by simpa [hm', hn', streamAll] using hrest⟩

/-! ### Operators -/

/-- The names of the operators. -/
def ops : List String :=
  ["Empty", "FullScan", "TypeScan", "IndexLookup", "Incidence", "TargetSet", "Traversal", "ZigZagIntersect",
    "SortedMergeIntersect", "Union", "Filter", "Map", "Predicate", "Membership", "Materialize"]

theorem ops_prefixFree : ∀ a ∈ ops, ∀ b ∈ ops, bytes a.toList <+: bytes b.toList → a = b := by decide

theorem op_prefix_stream (n : ExplainNode) : bytes n.op.toList <+: n.stream := by
  cases n with
  | node op props inputs =>
    rw [stream_eq, heading, bytes_append, List.append_assoc]
    exact List.prefix_append _ _

theorem op_eq_of_stream_append_eq {m n : ExplainNode} {r r' : List UInt8} (hm : m.op ∈ ops) (hn : n.op ∈ ops)
    (h : m.stream ++ r = n.stream ++ r') : m.op = n.op := by
  have hmr : bytes m.op.toList <+: m.stream ++ r := (op_prefix_stream m).trans (List.prefix_append _ _)
  have hnr : bytes n.op.toList <+: m.stream ++ r := h ▸ (op_prefix_stream n).trans (List.prefix_append _ _)
  rcases List.prefix_or_prefix_of_prefix hmr hnr with hmn | hnm
  · exact ops_prefixFree _ hm _ hn hmn
  · exact (ops_prefixFree _ hn _ hm hnm).symm

end ExplainNode

end HyperQuery
