import Exemplar.Json.Reader

/-!
# Readers without their bounds

Each reader of a container says of the cursor it leaves that less is left to
read. Here the same readers are described without that, as plain sequences of
smaller readers.
-/

namespace Exemplar.Json

theorem readCharacters_eq (c : Cursor) :
    readCharacters c =
      match c.peek? with
      | none => .error (c.errorHere .eofString)
      | some char =>
        if char = '"' then .ok ([], c.next)
        else if char = '\\' then
          readEscape c.next >>= fun (meant, d) =>
            (readCharacters d).map fun (rest, e) => (meant :: rest, e)
        else if char.toNat < 32 then .error (c.errorAtNext .controlCharacter)
        else (readCharacters c.next).map fun (rest, e) => (char :: rest, e) := by
  rw [readCharacters]
  split
  next h => simp only [h]
  next char h =>
    simp only [h]
    split
    · rfl
    · split
      · split
        next ended => rw [ended]; rfl
        next ended => rw [ended]; rfl
      · rfl

/-- A reading that forgets that it left less. -/
def plain {α : Type} {c : Cursor} (reading : Reading α c) : Except SyntaxError (α × Cursor) :=
  reading.map fun (a, d) => (a, d.1)

theorem left_of_plain {α : Type} {c d : Cursor} {reading : Reading α c} {a : α}
    (read : plain reading = .ok (a, d)) : d.left < c.left := by
  obtain ⟨⟨_, after⟩, _, same⟩ := map_eq_ok.mp read
  cases same
  exact after.2

theorem readValue_eq (room : Nat) (c : Cursor) :
    plain (readValue room c) =
      match c.peek? with
      | some '[' =>
        match room with
        | 0 => .error (c.errorAtNext .nestingLimit)
        | room + 1 => (plain (readItems room true c.next)).map fun (items, d) => (.array items, d)
      | some '\x7b' =>
        match room with
        | 0 => .error (c.errorAtNext .nestingLimit)
        | room + 1 =>
          (plain (readMembers room true c.next)).map fun (members, d) => (.object members, d)
      | _ => readScalar c := by
  rw [readValue]
  split
  next h =>
    simp only [h]
    cases room with
    | zero => rfl
    | succ room =>
      dsimp only
      rcases readItems room true c.next with error | ⟨items, d, less⟩ <;> rfl
  next h =>
    simp only [h]
    cases room with
    | zero => rfl
    | succ room =>
      dsimp only
      rcases readMembers room true c.next with error | ⟨members, d, less⟩ <;> rfl
  next noArray noObject =>
    refine Eq.trans (b := readScalar c) ?_ ?_
    · split
      next ended => simp only [ended]; rfl
      next ended => simp only [ended]; rfl
    · split
      next h => exact (noArray h).elim
      next h => exact (noObject h).elim
      next => rfl

theorem readValue_of_end (room : Nat) {c : Cursor} (h : c.peek? = none) :
    ∃ error, plain (readValue room c) = .error error := by
  refine ⟨c.errorAtNext .eofValue, ?_⟩
  rw [readValue_eq, h, readScalar, h]

theorem readItems_eq (room : Nat) (first : Bool) (c : Cursor) :
    plain (readItems room first c) = nextItem first c >>= fun
      | .done d => .ok ([], d)
      | .item s => plain (readValue room s) >>= fun (item, d) =>
          (plain (readItems room false d)).map fun (rest, e) => (item :: rest, e) := by
  rw [readItems]
  split
  next ended => simp only [ended]; rfl
  next ended => simp only [ended]; rfl
  next s ended =>
    simp only [ended, bind, Except.bind]
    rcases readValue room s with error | ⟨item, d, less⟩
    · rfl
    · dsimp only [plain, Except.map]
      rcases readItems room false d with error | ⟨rest, e, less'⟩ <;> rfl

theorem readMembers_eq (room : Nat) (first : Bool) (c : Cursor) :
    plain (readMembers room first c) = nextKey first c >>= fun
      | .done d => .ok ([], d)
      | .item s => readString s >>= fun (key, d) => readColon d >>= fun e =>
          plain (readValue room e.skipBlanks) >>= fun (value, f) =>
            (plain (readMembers room false f)).map fun (rest, g) => ((key, value) :: rest, g) := by
  rw [readMembers]
  split
  next ended => simp only [ended]; rfl
  next ended => simp only [ended]; rfl
  next s ended =>
    simp only [ended, bind, Except.bind]
    split
    next ended => simp only [ended]; rfl
    next key d ended =>
      simp only [ended]
      split
      next ended => simp only [ended]; rfl
      next e ended =>
        simp only [ended]
        rcases readValue room e.skipBlanks with error | ⟨value, f, less⟩
        · rfl
        · dsimp only [plain, Except.map]
          rcases readMembers room false f with error | ⟨rest, g, less'⟩ <;> rfl

theorem ofText_eq (text : String) :
    ofText text =
      plain (readValue maxNesting (Cursor.start text).skipBlanks) >>= fun (value, after) =>
        if after.skipBlanks.rest.isEmpty then .ok (distinctKeys value)
        else .error (after.skipBlanks.errorAtNext .trailingCharacters) := by
  rw [ofText]
  rcases readValue maxNesting (Cursor.start text).skipBlanks with error | ⟨value, after, less⟩ <;> rfl

end Exemplar.Json
