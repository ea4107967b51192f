import DisciplinedConvex.Double
import DisciplinedConvex.Proofs.Meaning
import DisciplinedConvex.Workspace.Construction
import Mathlib.Data.List.Flatten

namespace DisciplinedConvex

variable {α : Type}

theorem append_cons_inj {β : Type} {as bs xs ys : List β} {s : β} (ha : s ∉ as) (hb : s ∉ bs)
    (h : as ++ s :: xs = bs ++ s :: ys) : as = bs ∧ xs = ys := by
  induction as generalizing bs with
  | nil =>
    cases bs with
    | nil => exact ⟨rfl, (List.cons.inj h).2⟩
    | cons b bs => exact absurd ((List.cons.inj h).1 ▸ List.mem_cons_self ..) hb
  | cons a as ih =>
    cases bs with
    | nil => exact absurd ((List.cons.inj h).1 ▸ List.mem_cons_self ..) ha
    | cons b bs =>
      obtain ⟨rfl, htail⟩ := List.cons.inj h
      obtain ⟨rfl, hxs⟩ := ih (fun h => ha (List.mem_cons_of_mem _ h))
        (fun h => hb (List.mem_cons_of_mem _ h)) htail
      exact ⟨rfl, hxs⟩

namespace Identity

theorem utf8_append (s t : String) : utf8 (s ++ t) = utf8 s ++ utf8 t := by
  simp [utf8]

theorem utf8_inj {s t : String} (h : utf8 s = utf8 t) : s = t := by
  apply String.toByteArray_inj.mp
  apply ByteArray.ext
  exact Array.toList_inj.mp h

def Avoids (d : Char) (s : String) : Prop := ∀ c ∈ s.toList, c.toNat < 128 ∧ c ≠ d

theorem Avoids.not_mem {d : Char} {s : String} (h : Avoids d s) (hd : d.toNat < 128) :
    UInt8.ofNat d.toNat ∉ utf8 s := by
  have hbytes : utf8 s = s.toList.map fun c => UInt8.ofNat c.toNat := by
    have hflat : utf8 s = s.toList.flatMap String.utf8EncodeChar := by
      rw [utf8, String.toUTF8, ← String.utf8Encode_toList, List.utf8Encode]
      simp
    rw [hflat, List.map_eq_flatMap]
    apply List.flatMap_congr
    intro c hc
    have hlt := (h c hc).1
    have hle : c.val.toNat ≤ 127 := by
      change c.toNat ≤ 127
      omega
    simp only [String.utf8EncodeChar, if_pos hle]
    rfl
  rw [hbytes, List.mem_map]
  rintro ⟨c, hc, he⟩
  obtain ⟨hlt, hne⟩ := h c hc
  apply hne
  have hmod := congrArg UInt8.toNat he
  simp only [UInt8.toNat_ofNat'] at hmod
  exact Char.toNat_inj.mp (by omega)

theorem toList_toString (n : Nat) : (toString n).toList = Nat.toDigits 10 n := by
  rw [Nat.toString_eq_ofList_toDigits, String.toList_ofList]

theorem avoids_toString {d : Char} (hd : d.isDigit = false) (n : Nat) :
    Avoids d (toString n) := by
  intro c hc
  rw [toList_toString] at hc
  have hdigit := Nat.isDigit_of_mem_toDigits (by omega) (by omega) hc
  refine ⟨?_, ?_⟩
  · simp only [Char.isDigit, Bool.and_eq_true, decide_eq_true_eq] at hdigit
    have hle := UInt32.le_iff_toNat_le.mp hdigit.2
    exact Nat.lt_of_le_of_lt hle (by decide)
  · rintro rfl
    rw [hd] at hdigit
    cases hdigit

theorem avoids_hexDigest (message : List UInt8) : Avoids ',' (Sha256.hexDigest message) := by
  have hdigit : ∀ k < 16, (Nat.digitChar k).toNat < 128 ∧ Nat.digitChar k ≠ ',' := by decide
  intro c hc
  rw [Sha256.hexDigest, String.toList_ofList] at hc
  obtain ⟨w, -, hc⟩ := List.mem_flatMap.mp hc
  obtain ⟨b, -, hc⟩ := List.mem_flatMap.mp hc
  have hb : b.toNat < 256 := b.toNat_lt
  rcases List.mem_pair.mp hc with rfl | rfl
  · exact hdigit _ (by omega)
  · exact hdigit _ (by omega)

theorem toString_inj {m n : Nat} (h : toString m = toString n) : m = n := by
  have hlist := congrArg String.toList h
  rw [toList_toString, toList_toString] at hlist
  rw [← Nat.ofDigitChars_ten_toDigits (n := m), hlist, Nat.ofDigitChars_ten_toDigits]

theorem shapeText_pair (r c : Nat) :
    shapeText [(r : Int), (c : Int)] = "(" ++ toString r ++ ", " ++ toString c ++ ")" := by
  simp [shapeText, String.intercalate]
  rfl

theorem unknownPreimage_inj {m n : Nat} (h : unknownPreimage m = unknownPreimage n) : m = n := by
  rw [unknownPreimage, unknownPreimage, utf8_append, utf8_append] at h
  exact toString_inj (utf8_inj (List.append_cancel_left h))

theorem constantPreimage_inj [Scalar α] {r c r' c' : Nat} {xs ys : List α}
    (h : constantPreimage [(r : Int), (c : Int)] xs = constantPreimage [(r' : Int), (c' : Int)] ys) :
    r = r' ∧ c = c' ∧ xs.flatMap Scalar.bytes = ys.flatMap Scalar.bytes := by
  have hcomma (n : Nat) : 44 ∉ utf8 (toString n) := (avoids_toString (d := ',') rfl n).not_mem (by decide)
  have hparen (n : Nat) : 41 ∉ utf8 (toString n) := (avoids_toString (d := ')') rfl n).not_mem (by decide)
  have hopen : utf8 "(" = [40] := by decide
  have hsep : utf8 ", " = [44, 32] := by decide
  have hclose : utf8 ")" = [41] := by decide
  simp only [constantPreimage, shapeText_pair, utf8_append, List.append_assoc, hopen, hsep, hclose,
    List.append_cancel_left_eq, List.cons_append, List.nil_append, List.cons.injEq, true_and] at h
  obtain ⟨hr, h⟩ := append_cons_inj (hcomma r) (hcomma r') h
  obtain ⟨hc, h⟩ := append_cons_inj (hparen c) (hparen c') (List.cons.inj h).2
  exact ⟨toString_inj (utf8_inj hr), toString_inj (utf8_inj hc), h⟩

theorem operationPreimage_inj {head : String} {ids ids' : List String}
    (hlen : ids.length = ids'.length) (hids : ∀ id ∈ ids, Avoids ',' id)
    (hids' : ∀ id ∈ ids', Avoids ',' id)
    (h : operationPreimage head ids = operationPreimage head ids') : ids = ids' := by
  have hcomma : utf8 "," = [44] := by decide
  have hmem {id : String} (h : Avoids ',' id) : 44 ∉ utf8 id := h.not_mem (by decide)
  simp only [operationPreimage, List.append_assoc, List.append_cancel_left_eq] at h
  induction ids generalizing ids' with
  | nil => exact (List.length_eq_zero_iff.mp hlen.symm).symm
  | cons id ids ih =>
    cases ids' with
    | nil => cases hlen
    | cons id' ids' =>
      simp only [List.flatMap_cons, hcomma, List.append_assoc, List.cons_append,
        List.nil_append] at h
      obtain ⟨hid, h⟩ := append_cons_inj (hmem (hids id (List.mem_cons_self ..)))
        (hmem (hids' id' (List.mem_cons_self ..))) h
      rw [utf8_inj hid, ih (Nat.succ.inj hlen) (fun i hi => hids i (List.mem_cons_of_mem _ hi))
        (fun i hi => hids' i (List.mem_cons_of_mem _ hi)) h]

end Identity

/-- Numbers of which each is told by its bytes, and has as many as every other one. -/
class Encoded (α : Type) [Scalar α] : Prop where
  bytes_inj : ∀ x y : α, Scalar.bytes x = Scalar.bytes y → x = y
  bytes_length : ∀ x y : α, (Scalar.bytes x).length = (Scalar.bytes y).length

theorem Encoded.flatMap_inj [Scalar α] [Encoded α] {xs ys : List α} (hlen : xs.length = ys.length)
    (h : xs.flatMap Scalar.bytes = ys.flatMap Scalar.bytes) : xs = ys := by
  induction xs generalizing ys with
  | nil => exact (List.length_eq_zero_iff.mp hlen.symm).symm
  | cons x xs ih =>
    cases ys with
    | nil => cases hlen
    | cons y ys =>
      rw [List.flatMap_cons, List.flatMap_cons] at h
      obtain ⟨hx, hxs⟩ := List.append_inj h (Encoded.bytes_length x y)
      rw [Encoded.bytes_inj x y hx, ih (Nat.succ.inj hlen) hxs]

namespace Double

theorem littleEndian_succ (count n : Nat) :
    littleEndian (count + 1) n = UInt8.ofNat n :: littleEndian count (n / 256) := by
  simp [littleEndian, List.range_succ_eq_map, Nat.div_div_eq_div_mul, Nat.pow_succ, Nat.mul_comm]

theorem littleEndian_inj {count m n : Nat} (h : littleEndian count m = littleEndian count n) :
    m % Nat.pow 256 count = n % Nat.pow 256 count := by
  induction count generalizing m n with
  | zero => simp [Nat.mod_one]
  | succ count ih =>
    rw [littleEndian_succ, littleEndian_succ] at h
    obtain ⟨hbyte, h⟩ := List.cons.inj h
    have hlow := congrArg UInt8.toNat hbyte
    simp only [UInt8.toNat_ofNat'] at hlow
    have hpow : Nat.pow 256 (count + 1) = 256 * Nat.pow 256 count := Nat.mul_comm ..
    rw [hpow, Nat.mod_mul, Nat.mod_mul, ih h]
    omega

instance : Encoded Double where
  bytes_inj x y h := by
    have hmod := littleEndian_inj h
    have hpow : Nat.pow 256 8 = 2 ^ 64 := rfl
    rw [hpow, Nat.mod_eq_of_lt x.bits.toNat_lt, Nat.mod_eq_of_lt y.bits.toNat_lt] at hmod
    exact congrArg Double.mk (UInt64.toNat_inj.mp hmod)
  bytes_length _ _ := (littleEndian_length ..).trans (littleEndian_length ..).symm

end Double

namespace Constant

variable [Zero α]

theorem length_listing (A : Dense α) : (listing A).length = A.rows * A.cols := by
  have hmap : (List.range A.rows).map (fun i =>
      ((List.range A.cols).map fun j => A.entry i j).length) = List.replicate A.rows A.cols := by
    simp
  rw [listing, List.length_flatMap, hmap, List.sum_replicate_nat]

theorem listing_inj {A B : Dense α} (hr : A.rows = B.rows) (hc : A.cols = B.cols)
    (h : listing A = listing B) : A = B := by
  have hrows : (List.range A.rows).map (fun i => (List.range A.cols).map fun j => A.entry i j) =
      (List.range A.rows).map fun i => (List.range A.cols).map fun j => B.entry i j := by
    refine List.eq_iff_flatten_eq.mpr ⟨?_, by simp [Function.comp_def]⟩
    rw [listing, listing, ← hr, ← hc] at h
    rw [← List.flatMap_def, ← List.flatMap_def, h]
  refine Dense.ext_vec hr hc (B.vec_eq_of_entry A.vec (by rw [A.size_vec, hr, hc]) ?_)
  intro i hi j hj
  rw [← hr, A.getD_vec (hr ▸ hi)]
  have hrow := List.map_inj_left.mp hrows i (List.mem_range.mpr (hr ▸ hi))
  exact List.map_inj_left.mp hrow j (List.mem_range.mpr (hc ▸ hj))

end Constant

namespace Node

variable [Zero α] [Scalar α]

def preimage : Node α → List UInt8
  | constant c =>
    Identity.constantPreimage [c.value.rows, c.value.cols] (Constant.listing c.value)
  | unknown u => Identity.unknownPreimage u.serial
  | n => Identity.operationPreimage n.head (n.children.map id)

def heads : List String := ["constant", "variable", "*", ".*", "square"]

theorem heads_initials : ∀ p ∈ heads, ∀ q ∈ heads,
    (Identity.utf8 p).head?.isSome ∧ ((Identity.utf8 p).head? = (Identity.utf8 q).head? → p = q) := by
  decide

omit [Zero α] [Scalar α] in
theorem head_mem_heads {n : Node α} (hn : n.Formed) : n.head ∈ heads := by
  cases n with
  | constant | unknown | product | weighted | square => simp [heads, head]
  | bare => exact hn.elim

theorem preimage_eq_append {n : Node α} (hn : n.Formed) :
    ∃ rest, n.preimage = Identity.utf8 n.head ++ rest := by
  cases n with
  | constant c =>
    have hword : "constant:" = "constant" ++ ":" := by decide
    rw [preimage, Identity.constantPreimage, hword, Identity.utf8_append, Identity.utf8_append]
    exact ⟨_, by rw [List.append_assoc, List.append_assoc]; rfl⟩
  | unknown u =>
    have hword : "variable:" = "variable" ++ ":" := by decide
    rw [preimage, Identity.unknownPreimage, hword, Identity.utf8_append, Identity.utf8_append]
    exact ⟨_, List.append_assoc ..⟩
  | product | weighted | square =>
    simp only [preimage, Identity.operationPreimage, List.append_assoc]
    exact ⟨_, rfl⟩
  | bare => exact hn.elim

theorem head_eq_of_preimage {m n : Node α} (hm : m.Formed) (hn : n.Formed)
    (h : m.preimage = n.preimage) : m.head = n.head := by
  obtain ⟨rest, hrest⟩ := preimage_eq_append hm
  obtain ⟨rest', hrest'⟩ := preimage_eq_append hn
  rw [hrest, hrest'] at h
  have hfirst := congrArg List.head? h
  obtain ⟨b, hb⟩ := Option.isSome_iff_exists.mp
    (heads_initials _ (head_mem_heads hm) _ (head_mem_heads hn)).1
  obtain ⟨b', hb'⟩ := Option.isSome_iff_exists.mp
    (heads_initials _ (head_mem_heads hn) _ (head_mem_heads hm)).1
  rw [List.head?_append, List.head?_append, hb, hb'] at hfirst
  refine (heads_initials _ (head_mem_heads hm) _ (head_mem_heads hn)).2 ?_
  rw [hb, hb']
  exact hfirst

end Node

end DisciplinedConvex
