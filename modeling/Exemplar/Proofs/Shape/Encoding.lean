import Exemplar.Proofs.Shape.References
import Exemplar.Shape.Encoding
import Mathlib.Algebra.Group.Nat.Defs

/-!
# Shapes are read off their encodings

The bytes of a shape say where they end: a tag says what comes, and every list
and every text stands after its length. So whatever follows the bytes of one
shape, they are not the first bytes of another. This holds as long as lengths
fit into eight bytes.
-/

namespace ByteArray

theorem toList_loop (bytes : ByteArray) (i : Nat) (read : List UInt8) :
    toList.loop bytes i read = read.reverse ++ bytes.data.toList.drop i := by
  induction i, read using toList.loop.induct bytes with
  | case1 i read inside ih =>
    have there : i < bytes.data.toList.length := inside
    have byte : bytes.get! i = bytes.data.toList[i] := getElem!_pos bytes.data i inside
    rw [toList.loop, if_pos inside, ih, List.drop_eq_getElem_cons there, byte, List.reverse_cons,
      List.append_assoc, List.singleton_append]
  | case2 i read outside =>
    have past : bytes.data.toList.length ≤ i := Nat.le_of_not_lt outside
    rw [toList.loop, if_neg outside, List.drop_eq_nil_of_le past, List.append_nil]

theorem toList_eq_data_toList (bytes : ByteArray) : bytes.toList = bytes.data.toList := by
  rw [toList, toList_loop]
  rfl

theorem toList_injective : Function.Injective toList := by
  intro bytes other same
  rw [toList_eq_data_toList, toList_eq_data_toList, Array.toList_inj] at same
  exact ByteArray.ext same

end ByteArray

namespace Exemplar

open Blake3 (Digest)

/-! ## Telling values apart by their first bytes -/

/-- Whatever follows the bytes of two values, equal sequences come from equal values. -/
def Splits {α : Type} (encode : α → List UInt8) (x y : α) : Prop :=
  ∀ s t, encode x ++ s = encode y ++ t → x = y ∧ s = t

/-- Among some values, the bytes of one are not the first bytes of another. -/
def PrefixFree {α : Type} (valid : α → Prop) (encode : α → List UInt8) : Prop :=
  ∀ x y, valid x → valid y → encode x <+: encode y → x = y

namespace Splits

variable {α : Type} {encode : α → List UInt8} {x y : α} {xs ys : List α}

theorem of_length (len : (encode x).length = (encode y).length)
    (inj : encode x = encode y → x = y) : Splits encode x y := by
  intro s t same
  obtain ⟨bytes, rest⟩ := List.append_inj same len
  exact ⟨inj bytes, rest⟩

theorem prefixFree {valid : α → Prop} (each : ∀ x y, valid x → valid y → Splits encode x y) :
    PrefixFree valid encode := by
  rintro x y hx hy ⟨rest, same⟩
  refine (each x y hx hy rest [] ?_).1
  rw [same, List.append_nil]

/-- As many values, one after the other. -/
theorem flatMap (each : ∀ x ∈ xs, ∀ y ∈ ys, Splits encode x y) (len : xs.length = ys.length)
    {s t : List UInt8} (same : xs.flatMap encode ++ s = ys.flatMap encode ++ t) :
    xs = ys ∧ s = t := by
  induction xs generalizing ys with
  | nil =>
    cases List.length_eq_zero_iff.mp len.symm
    exact ⟨rfl, same⟩
  | cons x xs ih =>
    cases ys with
    | nil => cases len
    | cons y ys =>
      rw [List.flatMap_cons, List.flatMap_cons, List.append_assoc, List.append_assoc] at same
      obtain ⟨rfl, same⟩ := each x List.mem_cons_self y List.mem_cons_self _ _ same
      have later : ∀ x ∈ xs, ∀ y ∈ ys, Splits encode x y := fun x hx y hy =>
        each x (List.mem_cons_of_mem _ hx) y (List.mem_cons_of_mem _ hy)
      obtain ⟨rfl, rest⟩ := ih later (Nat.succ.inj len) (List.append_cancel_left same)
      exact ⟨rfl, rest⟩

/-- One more byte in front. -/
theorem cons {tag : UInt8} (splits : Splits encode x y) :
    Splits (fun z => tag :: encode z) x y := by
  intro s t same
  exact splits s t (List.cons.inj same).2

end Splits

/-! ## Lengths and texts -/

/-- Numbers with the same first digits leave the same remainder. -/
theorem mod_pow_eq_of_digits {base m n : Nat} {count : Nat}
    (digits : ∀ i < count, m / base ^ i % base = n / base ^ i % base) :
    m % base ^ count = n % base ^ count := by
  induction count with
  | zero => rw [Nat.pow_zero, Nat.mod_one, Nat.mod_one]
  | succ count ih =>
    have before := ih fun i hi => digits i (Nat.lt_succ_of_lt hi)
    rw [Nat.mod_pow_succ, Nat.mod_pow_succ, before, digits count (Nat.lt_succ_self count)]

theorem length_encodeLength (length : Nat) : (encodeLength length).length = 8 := by
  rw [encodeLength, List.length_map, List.length_range]

theorem encodeLength_inj {m n : Nat} (hm : m < 2 ^ 64) (hn : n < 2 ^ 64)
    (same : encodeLength m = encodeLength n) : m = n := by
  have digits : ∀ i < 8, m / 256 ^ i % 256 = n / 256 ^ i % 256 := by
    intro i hi
    have byte := List.map_inj_left.mp same i (List.mem_range.mpr hi)
    exact congrArg UInt8.toNat byte
  have remainder := mod_pow_eq_of_digits digits
  omega

theorem splits_encodeLength {m n : Nat} (hm : m < 2 ^ 64) (hn : n < 2 ^ 64) :
    Splits encodeLength m n := by
  refine Splits.of_length ?_ (encodeLength_inj hm hn)
  rw [length_encodeLength, length_encodeLength]

theorem splits_encodeText {text other : String} (ht : text.utf8ByteSize < 2 ^ 64)
    (ho : other.utf8ByteSize < 2 ^ 64) : Splits encodeText text other := by
  intro s t same
  rw [encodeText, encodeText, List.append_assoc, List.append_assoc] at same
  obtain ⟨size, same⟩ := splits_encodeLength ht ho _ _ same
  have len : text.toUTF8.toList.length = other.toUTF8.toList.length := by
    rw [ByteArray.toList_eq_data_toList, ByteArray.toList_eq_data_toList]
    exact size
  obtain ⟨bytes, rest⟩ := List.append_inj same len
  exact ⟨String.toByteArray_inj.mp (ByteArray.toList_injective bytes), rest⟩

/-- A list whose values stand after their number. -/
theorem splits_counted {α : Type} {encode : α → List UInt8} {xs ys : List α}
    (hx : xs.length < 2 ^ 64) (hy : ys.length < 2 ^ 64)
    (each : ∀ x ∈ xs, ∀ y ∈ ys, Splits encode x y) :
    Splits (fun zs => encodeLength zs.length ++ zs.flatMap encode) xs ys := by
  intro s t same
  rw [List.append_assoc, List.append_assoc] at same
  obtain ⟨len, same⟩ := splits_encodeLength hx hy _ _ same
  exact Splits.flatMap each len same

/-! ## Shapes whose lengths fit into eight bytes -/

inductive Leaf.Fits {κ : Type} : Leaf κ → Prop
  | primitive (kind : Kind) : Fits (.primitive kind)
  | array {elements : List (Leaf κ)} (length : elements.length < 2 ^ 64)
      (each : ∀ leaf ∈ elements, Fits leaf) : Fits (.array elements)
  | object (ref : κ) : Fits (.object ref)

/-- The alternatives of an array, and all lists in them, have lengths that fit. -/
structure Leaf.AllFit {κ : Type} (leaves : List (Leaf κ)) : Prop where
  length : leaves.length < 2 ^ 64
  each : ∀ leaf ∈ leaves, leaf.Fits

structure Field.Fits {κ : Type} (field : Field κ) : Prop where
  name : field.name.utf8ByteSize < 2 ^ 64
  types : Leaf.AllFit field.types

/-- The fields of an object, and all lists and names in them, have lengths that fit. -/
structure Field.AllFit {κ : Type} (fields : List (Field κ)) : Prop where
  length : fields.length < 2 ^ 64
  each : ∀ field ∈ fields, field.Fits

def Composite.Fits {κ : Type} : Composite κ → Prop
  | .array elements => Leaf.AllFit elements
  | .object fields => Field.AllFit fields

def Shape.Fits {κ : Type} : Shape κ → Prop
  | .primitive _ => True
  | .array elements => Leaf.AllFit elements
  | .object fields => Field.AllFit fields

/-! ## The encoding of shapes -/

theorem Kind.encode_injective : Function.Injective encode := by
  intro kind other
  cases kind <;> cases other <;> decide

theorem Kind.splits (kind other : Kind) : Splits encode kind other :=
  Splits.of_length rfl fun same => encode_injective same

/-- Bytes with different tags go on differently. -/
theorem append_ne_of_tag_ne {tag tag' : UInt8} (ne : tag ≠ tag') {s t u v : List UInt8} :
    tag :: s ++ u ≠ tag' :: t ++ v :=
  fun same => ne (List.cons.inj same).1

namespace Leaf

theorem encodeAll_eq_flatMap (leaves : List (Leaf Digest)) :
    encodeAll leaves = leaves.flatMap encode := by
  induction leaves with
  | nil => rfl
  | cons leaf rest ih => rw [encodeAll, ih, List.flatMap_cons]

theorem encode_array (elements : List (Leaf Digest)) :
    (array elements).encode = encodeArray elements := by
  rw [encode, encodeArray]

end Leaf

theorem encodeArray_eq (elements : List (Leaf Digest)) :
    encodeArray elements = 0x02 :: (encodeLength elements.length ++ elements.flatMap Leaf.encode) := by
  rw [encodeArray, Leaf.encodeAll_eq_flatMap, List.cons_append]

/-- Arrays are told apart if their alternatives are. -/
theorem splits_encodeArray_of_each {elements others : List (Leaf Digest)}
    (he : elements.length < 2 ^ 64) (ho : others.length < 2 ^ 64)
    (each : ∀ leaf ∈ elements, ∀ other ∈ others, Splits Leaf.encode leaf other) :
    Splits encodeArray elements others := by
  intro s t same
  rw [encodeArray_eq, encodeArray_eq] at same
  exact (splits_counted he ho each).cons s t same

theorem Leaf.splits {leaf other : Leaf Digest} (hl : leaf.Fits) (ho : other.Fits) :
    Splits encode leaf other := by
  induction leaf using inPlace_induction generalizing other with
  | primitive kind =>
    intro s t same
    cases ho with
    | primitive other =>
      obtain ⟨rfl, rest⟩ := kind.splits other s t same
      exact ⟨rfl, rest⟩
    | array _ _ => exact absurd same (append_ne_of_tag_ne (by decide))
    | object ref => exact absurd same (append_ne_of_tag_ne (by decide))
  | array elements ih =>
    obtain ⟨length, each⟩ : AllFit elements := by
      cases hl with
      | array length each => exact ⟨length, each⟩
    intro s t same
    cases ho with
    | primitive kind => exact absurd same (append_ne_of_tag_ne (by decide))
    | array length' each' =>
      rw [encode_array, encode_array] at same
      obtain ⟨rfl, rest⟩ := splits_encodeArray_of_each length length'
        (fun leaf hl other ho => ih leaf hl (each leaf hl) (each' other ho)) s t same
      exact ⟨rfl, rest⟩
    | object ref => exact absurd same (append_ne_of_tag_ne (by decide))
  | object ref =>
    intro s t same
    cases ho with
    | primitive kind => exact absurd same (append_ne_of_tag_ne (by decide))
    | array _ _ => exact absurd same (append_ne_of_tag_ne (by decide))
    | object other =>
      have same : ref.toList ++ s = other.toList ++ t := (List.cons.inj same).2
      obtain ⟨bytes, rest⟩ := List.append_inj same (by rw [Vector.length_toList, Vector.length_toList])
      exact ⟨congrArg object (Vector.toList_inj.mp bytes), rest⟩

theorem splits_encodeArray {elements others : List (Leaf Digest)} (he : Leaf.AllFit elements)
    (ho : Leaf.AllFit others) : Splits encodeArray elements others :=
  splits_encodeArray_of_each he.length ho.length fun leaf hl other ho' =>
    Leaf.splits (he.each leaf hl) (ho.each other ho')

theorem mark_injective : Function.Injective fun mark : Bool => if mark then (1 : UInt8) else 0 := by
  intro mark other
  cases mark <;> cases other <;> decide

theorem Field.splits {field other : Field Digest} (hf : field.Fits) (ho : other.Fits) :
    Splits encode field other := by
  obtain ⟨name, types, nullable⟩ := field
  obtain ⟨name', types', nullable'⟩ := other
  intro s t same
  simp only [encode, Leaf.encodeAll_eq_flatMap, List.append_assoc, List.cons_append,
    List.nil_append] at same
  obtain ⟨rfl, same⟩ := splits_encodeText hf.name ho.name _ _ same
  obtain ⟨mark, same⟩ := List.cons.inj same
  have listed := splits_counted hf.types.length ho.types.length fun leaf hl other ho' =>
    Leaf.splits (hf.types.each leaf hl) (ho.types.each other ho')
  rw [← List.append_assoc, ← List.append_assoc] at same
  obtain ⟨rfl, rest⟩ := listed s t same
  obtain rfl : nullable = nullable' := mark_injective mark
  exact ⟨rfl, rest⟩

theorem splits_encodeObject {fields others : List (Field Digest)} (hf : Field.AllFit fields)
    (ho : Field.AllFit others) : Splits encodeObject fields others := by
  intro s t same
  rw [encodeObject, encodeObject, List.cons_append, List.cons_append] at same
  have counted := splits_counted hf.length ho.length fun field hf' other ho' =>
    Field.splits (hf.each field hf') (ho.each other ho')
  exact counted.cons s t same

theorem Shape.splits {shape other : Shape Digest} (hs : shape.Fits) (ho : other.Fits) :
    Splits encode shape other := by
  intro s t same
  cases shape with
  | primitive kind =>
    cases other with
    | primitive other =>
      obtain ⟨rfl, rest⟩ := kind.splits other s t same
      exact ⟨rfl, rest⟩
    | array others => exact absurd same (append_ne_of_tag_ne (by decide))
    | object others => exact absurd same (append_ne_of_tag_ne (by decide))
  | array elements =>
    cases other with
    | primitive kind => exact absurd same (append_ne_of_tag_ne (by decide))
    | array others =>
      obtain ⟨rfl, rest⟩ := splits_encodeArray hs ho s t same
      exact ⟨rfl, rest⟩
    | object others => exact absurd same (append_ne_of_tag_ne (by decide))
  | object fields =>
    cases other with
    | primitive kind => exact absurd same (append_ne_of_tag_ne (by decide))
    | array others => exact absurd same (append_ne_of_tag_ne (by decide))
    | object others =>
      obtain ⟨rfl, rest⟩ := splits_encodeObject hs ho s t same
      exact ⟨rfl, rest⟩

namespace Composite

theorem encode_toShape (shape : Composite Digest) : shape.toShape.encode = shape.encode := by
  cases shape <;> rfl

theorem toShape_injective {κ : Type} : Function.Injective (toShape : Composite κ → Shape κ) := by
  intro shape other same
  cases shape <;> cases other <;> cases same <;> rfl

theorem Fits.toShape {κ : Type} {shape : Composite κ} (fits : shape.Fits) : shape.toShape.Fits := by
  cases shape <;> exact fits

theorem splits {shape other : Composite Digest} (hs : shape.Fits) (ho : other.Fits) :
    Splits encode shape other := by
  intro s t same
  rw [← encode_toShape, ← encode_toShape] at same
  obtain ⟨equal, rest⟩ := Shape.splits hs.toShape ho.toShape s t same
  exact ⟨toShape_injective equal, rest⟩

end Composite

/-- No encoding of a leaf is the beginning of another, and so for arrays, objects, composites and
shapes. An array is written in the same way wherever it stands, and what is written for a primitive,
an array, an object and a reference differs. -/
theorem encodings_prefixFree :
    PrefixFree Leaf.Fits Leaf.encode ∧ PrefixFree Leaf.AllFit encodeArray ∧
      PrefixFree Field.AllFit encodeObject ∧ PrefixFree Composite.Fits Composite.encode ∧
      PrefixFree Shape.Fits Shape.encode ∧
      (∀ elements : List (Leaf Digest), (Leaf.array elements).encode = encodeArray elements ∧
        (Composite.array elements).encode = encodeArray elements ∧
        (Shape.array elements).encode = encodeArray elements) ∧
      ∀ (kind : Kind) (elements : List (Leaf Digest)) (fields : List (Field Digest)) (ref : Digest),
        [kind.encode, encodeArray elements, encodeObject fields, (Leaf.object ref).encode].Nodup := by
  refine ⟨Splits.prefixFree fun _ _ => Leaf.splits, Splits.prefixFree fun _ _ => splits_encodeArray,
    Splits.prefixFree fun _ _ => splits_encodeObject, Splits.prefixFree fun _ _ => Composite.splits,
    Splits.prefixFree fun _ _ => Shape.splits, ?_, ?_⟩
  · exact fun elements => ⟨Leaf.encode_array elements, rfl, rfl⟩
  · intro kind elements fields ref
    simp [Kind.encode, encodeArray, encodeObject, Leaf.encode]

/-- Names that are cut in different places, next to alternatives that hold an empty array. -/
theorem encodings_prefixFree_of_names :
    let shape (name name' : String) : Shape Digest :=
      .object [⟨name, [.primitive .null], true⟩, ⟨name', [.array []], false⟩]
    (shape "ab" "c").Fits ∧ (shape "a" "bc").Fits ∧
      ¬ (shape "ab" "c").encode <+: (shape "a" "bc").encode := by
  intro shape
  have fits : ∀ name name' : String, name.utf8ByteSize < 2 ^ 64 → name'.utf8ByteSize < 2 ^ 64 →
      (shape name name').Fits := by
    intro name name' short short'
    refine ⟨by simp, fun field hf => ?_⟩
    simp only [List.mem_cons, List.not_mem_nil, or_false] at hf
    rcases hf with rfl | rfl
    · exact ⟨short, by simp, fun leaf hl => List.mem_singleton.mp hl ▸ .primitive _⟩
    · refine ⟨short', by simp, fun leaf hl => List.mem_singleton.mp hl ▸ ?_⟩
      exact .array (by simp) (by simp)
  have first := fits "ab" "c" (by decide) (by decide)
  have second := fits "a" "bc" (by decide) (by decide)
  obtain ⟨_, _, _, _, shapes, _⟩ := encodings_prefixFree
  refine ⟨first, second, fun within => ?_⟩
  have same := shapes _ _ first second within
  simp [shape] at same

end Exemplar
