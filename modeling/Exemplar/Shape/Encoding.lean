import Exemplar.Digest.Blake3
import Exemplar.Shape.Key

/-!
# The canonical encoding of shapes

A shape over digests is written as bytes: a tag, then its parts in order, with
lengths of eight bytes, little end first. An array is written in the same way
wherever it stands. The digest of a key is the hash of its shape, in which
every reference has been replaced by its digest.
-/

namespace Exemplar

open Blake3 (Digest)

/-- A length in eight bytes, little end first. -/
def encodeLength (length : Nat) : List UInt8 :=
  (List.range 8).map fun i => (length / Nat.pow 256 i).toUInt8

/-- A text: the length of its UTF-8 form, then that form. -/
def encodeText (text : String) : List UInt8 :=
  encodeLength text.utf8ByteSize ++ text.toUTF8.toList

def Kind.code : Kind → UInt8
  | .string => 0
  | .boolean => 1
  | .number => 2
  | .null => 3

/-- A kind as a shape of its own. -/
def Kind.encode (kind : Kind) : List UInt8 := [0x01, kind.code]

mutual

def Leaf.encode : Leaf Digest → List UInt8
  | .primitive kind => kind.encode
  | .array elements => 0x02 :: encodeLength elements.length ++ Leaf.encodeAll elements
  | .object ref => 0x04 :: ref.toList

def Leaf.encodeAll : List (Leaf Digest) → List UInt8
  | [] => []
  | leaf :: rest => leaf.encode ++ Leaf.encodeAll rest

end

/-- A field in bytes: name, mark, alternatives. -/
def Field.encode (field : Field Digest) : List UInt8 :=
  encodeText field.name ++ [if field.nullable then 1 else 0] ++
    encodeLength field.types.length ++ Leaf.encodeAll field.types

def encodeArray (elements : List (Leaf Digest)) : List UInt8 :=
  0x02 :: encodeLength elements.length ++ Leaf.encodeAll elements

def encodeObject (fields : List (Field Digest)) : List UInt8 :=
  0x03 :: encodeLength fields.length ++ fields.flatMap Field.encode

def Composite.encode : Composite Digest → List UInt8
  | .array elements => encodeArray elements
  | .object fields => encodeObject fields

def Shape.encode : Shape Digest → List UInt8
  | .primitive kind => kind.encode
  | .array elements => encodeArray elements
  | .object fields => encodeObject fields

namespace Key

mutual

/-- The digest of the shape under a key. -/
def digest : Key → Digest
  | .of _ shape => Blake3.hash (digestComposite shape).encode

def digestComposite : Composite Key → Composite Digest
  | .array elements => .array (digestLeaves elements)
  | .object fields => .object (digestFields fields)

def digestFields : List (Field Key) → List (Field Digest)
  | [] => []
  | field :: rest => digestField field :: digestFields rest

def digestField : Field Key → Field Digest
  | ⟨name, types, nullable⟩ => ⟨name, digestLeaves types, nullable⟩

def digestLeaves : List (Leaf Key) → List (Leaf Digest)
  | [] => []
  | leaf :: rest => digestLeaf leaf :: digestLeaves rest

def digestLeaf : Leaf Key → Leaf Digest
  | .primitive kind => .primitive kind
  | .array elements => .array (digestLeaves elements)
  | .object ref => .object (digest ref)

end

end Key

/-- A key as text: the first twelve hexadecimal digits of its digest. -/
def Key.text (key : Key) : String := "#" ++ String.ofList ((Blake3.hex key.digest).toList.take 12)

def Shape.digests : Shape Key → Shape Digest
  | .primitive kind => .primitive kind
  | .array elements => .array (Key.digestLeaves elements)
  | .object fields => .object (Key.digestFields fields)

def Shape.contentHash (shape : Shape Key) : Digest := Blake3.hash shape.digests.encode

theorem Key.digest_address (shape : Composite Key) :
    (address shape).digest = shape.toShape.contentHash := by
  cases shape <;> rfl

def Leaf.contentHash (leaf : Leaf Key) : Digest := Blake3.hash (Key.digestLeaf leaf).encode

end Exemplar
