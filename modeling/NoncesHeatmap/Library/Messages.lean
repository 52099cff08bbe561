import NoncesHeatmap.Library.Numerals

/-! # Messages of a line protocol

A message is a start line, fields of a name and a value, an empty line and a body, whose length is the decimal
value of the field `lengthName`. `read` takes one message off a stream and leaves the rest; a message of which
no line has a carriage return and no name a colon is read as what it was, whatever follows it.
-/

namespace NoncesHeatmap.Messages
open Numerals
set_option autoImplicit false

def crlf : List UInt8 := [13, 10]

structure Message where
  start : List UInt8
  fields : List (List UInt8 × List UInt8)
  body : List UInt8

/-! ## Writing -/

def renderField (field : List UInt8 × List UInt8) : List UInt8 := field.1 ++ (58 :: 32 :: (field.2 ++ crlf))

def render (m : Message) : List UInt8 := m.start ++ (crlf ++ (m.fields.flatMap renderField ++ (crlf ++ m.body)))

/-! ## Reading -/

/-- A line and what follows its end. -/
def takeLine : List UInt8 → Option (List UInt8 × List UInt8)
  | [] => none
  | c :: s =>
    if c = 13 ∧ s.headD 0 = 10 then some ([], s.tail) else (takeLine s).map fun (line, r) => (c :: line, r)

/-- The name before the first colon, and the value after the blank that follows it. -/
def splitField (line : List UInt8) : Option (List UInt8 × List UInt8) :=
  match line.dropWhile (· ≠ 58) with
  | 58 :: 32 :: value => some (line.takeWhile (· ≠ 58), value)
  | _ => none

/-- The fields up to the empty line. -/
def readFields : ℕ → List UInt8 → Option (List (List UInt8 × List UInt8) × List UInt8)
  | 0, _ => none
  | fuel + 1, s => do
    let (line, s) ← takeLine s
    if line = [] then some ([], s)
    else do
      let field ← splitField line
      let (fields, s) ← readFields fuel s
      some (field :: fields, s)

def bodyLength (lengthName : List UInt8) (fields : List (List UInt8 × List UInt8)) : ℕ :=
  match fields.lookup lengthName with
  | some digits => value 0 digits
  | none => 0

def read (lengthName s : List UInt8) : Option (Message × List UInt8) := do
  let (start, s) ← takeLine s
  let (fields, s) ← readFields (s.length + 1) s
  if s.length < bodyLength lengthName fields then none
  else some (⟨start, fields, s.take (bodyLength lengthName fields)⟩, s.drop (bodyLength lengthName fields))

/-! ## A message is read as what it was -/

/-- A field that does not end its name or its line early. -/
structure Plain (field : List UInt8 × List UInt8) : Prop where
  name : 13 ∉ field.1 ∧ 58 ∉ field.1
  value : 13 ∉ field.2

structure WellFormed (lengthName : List UInt8) (m : Message) : Prop where
  start : 13 ∉ m.start
  fields : ∀ field ∈ m.fields, Plain field
  length : bodyLength lengthName m.fields = m.body.length

variable {line s rest : List UInt8} {field : List UInt8 × List UInt8} {fields : List (List UInt8 × List UInt8)} {fuel : ℕ}

theorem takeLine_append (h : 13 ∉ line) (s : List UInt8) : takeLine (line ++ (crlf ++ s)) = some (line, s) := by
  induction line with
  | nil => rfl
  | cons c line ih =>
    rw [List.mem_cons, not_or] at h
    rw [List.cons_append, takeLine, if_neg (fun hend => h.1 hend.1.symm), ih h.2]
    rfl

theorem splitField_eq (h : Plain field) : splitField (field.1 ++ 58 :: 32 :: field.2) = some field := by
  have hname : ∀ c ∈ field.1, decide (c ≠ 58) = true := by
    intro c hc
    refine decide_eq_true fun hcolon => h.name.2 ?_
    rwa [← hcolon]
  have hdrop : (field.1 ++ 58 :: 32 :: field.2).dropWhile (· ≠ 58) = 58 :: 32 :: field.2 := by
    rw [List.dropWhile_append_of_pos hname]
    rfl
  have htake : (field.1 ++ 58 :: 32 :: field.2).takeWhile (· ≠ 58) = field.1 ++ [] := by
    rw [List.takeWhile_append_of_pos hname]
    rfl
  simp only [splitField, hdrop, htake, List.append_nil]

theorem readFields_render (h : ∀ field ∈ fields, Plain field) (hfuel : fields.length < fuel) (s : List UInt8) :
    readFields fuel (fields.flatMap renderField ++ (crlf ++ s)) = some (fields, s) := by
  induction fields generalizing fuel with
  | nil =>
    obtain ⟨fuel, rfl⟩ := Nat.exists_eq_add_one_of_ne_zero (Nat.ne_zero_of_lt hfuel)
    rfl
  | cons field fields ih =>
    obtain ⟨fuel, rfl⟩ := Nat.exists_eq_add_one_of_ne_zero (Nat.ne_zero_of_lt hfuel)
    obtain ⟨hfield, hfields⟩ := List.forall_mem_cons.mp h
    have hline : 13 ∉ field.1 ++ 58 :: 32 :: field.2 := by
      simp only [List.mem_append, List.mem_cons, not_or]
      exact ⟨hfield.name.1, by decide, by decide, hfield.value⟩
    have htext : (field :: fields).flatMap renderField ++ (crlf ++ s) =
        (field.1 ++ 58 :: 32 :: field.2) ++ (crlf ++ (fields.flatMap renderField ++ (crlf ++ s))) := by
      simp only [List.flatMap_cons, renderField, List.append_assoc, List.cons_append]
    have hne : field.1 ++ 58 :: 32 :: field.2 ≠ [] := List.append_ne_nil_of_right_ne_nil _ (List.cons_ne_nil _ _)
    rw [htext, readFields, takeLine_append hline]
    simp only [bind, Option.bind, if_neg hne, splitField_eq hfield, ih hfields (Nat.lt_of_succ_lt_succ hfuel)]

theorem length_flatMap_renderField (fields : List (List UInt8 × List UInt8)) :
    fields.length ≤ (fields.flatMap renderField).length := by
  induction fields with
  | nil => exact le_rfl
  | cons field fields ih =>
    have hone : 1 ≤ (renderField field).length := by
      simp only [renderField, List.length_append, List.length_cons]
      omega
    rw [List.flatMap_cons, List.length_append, List.length_cons]
    omega

/-- A message is taken off a stream whole. -/
theorem read_render {lengthName : List UInt8} {m : Message} (h : WellFormed lengthName m) (rest : List UInt8) :
    read lengthName (render m ++ rest) = some (m, rest) := by
  have htext : render m ++ rest = m.start ++ (crlf ++ (m.fields.flatMap renderField ++ (crlf ++ (m.body ++ rest)))) := by
    simp only [render, List.append_assoc]
  have hfuel : m.fields.length < (m.fields.flatMap renderField ++ (crlf ++ (m.body ++ rest))).length + 1 := by
    have hfields := length_flatMap_renderField m.fields
    rw [List.length_append]
    omega
  have hbody : ¬ (m.body ++ rest).length < m.body.length := by
    rw [List.length_append]
    omega
  rw [htext, read, takeLine_append h.start]
  simp only [bind, Option.bind, readFields_render h.fields hfuel, h.length]
  rw [if_neg hbody, List.take_left, List.drop_left]

end NoncesHeatmap.Messages
