import NoncesHeatmap.Base.Json
import NoncesHeatmap.Base.Strings
import NoncesHeatmap.Library.Lines

/-! # The position of a parse error

`Json::convertOffset` reads the file again, line by line, until the lines that were read cover the offset
of the error. `ConfigFile::read` prints that line and a caret below the byte. -/

namespace NoncesHeatmap
open Lines
set_option autoImplicit false

/-- The bytes of a file, whose size is a signed 64-bit number. -/
structure FileContent where
  bytes : Bytes
  size_lt : bytes.length < 2 ^ 63

/-- A stream of which `rest` is not read yet. -/
structure IStream where
  rest : Bytes
  eof : Bool

namespace IStream

/-- `std::getline`: the newline is taken and not kept; a line that ends with the file sets `eofbit`. -/
def getline (ifs : IStream) : Bytes × IStream :=
  match ifs.rest.dropWhile (· ≠ newline) with
  | [] => (ifs.rest.takeWhile (· ≠ newline), ⟨[], true⟩)
  | _ :: rest => (ifs.rest.takeWhile (· ≠ newline), ⟨rest, ifs.eof⟩)

def remaining (ifs : IStream) : ℕ := ifs.rest.length + if ifs.eof then 0 else 1

/-- The line that is read, and whether the file ends with it. -/
theorem getline_cases (ifs : IStream) :
    newline ∉ ifs.getline.1 ∧
      (ifs.getline.2 = ⟨[], true⟩ ∧ ifs.rest = ifs.getline.1 ∨
        ∃ rest, ifs.getline.2 = ⟨rest, ifs.eof⟩ ∧ ifs.rest = ifs.getline.1 ++ newline :: rest) := by
  have hfree : newline ∉ ifs.rest.takeWhile (· ≠ newline) := by
    intro hmem
    have hne := List.mem_takeWhile_imp hmem
    simp at hne
  have happend : ifs.rest.takeWhile (· ≠ newline) ++ ifs.rest.dropWhile (· ≠ newline) = ifs.rest :=
    List.takeWhile_append_dropWhile
  rw [getline]
  split
  · next hnil =>
    rw [hnil, List.append_nil] at happend
    exact ⟨hfree, Or.inl ⟨rfl, happend.symm⟩⟩
  · next c rest hcons =>
    have hhead := List.head?_dropWhile_not (fun c : UInt8 => decide (c ≠ newline)) ifs.rest
    rw [hcons] at hhead
    have hc : c = newline := by simpa using hhead
    rw [hcons, hc] at happend
    exact ⟨hfree, Or.inr ⟨rest, rfl, happend.symm⟩⟩

theorem getline_remaining {ifs : IStream} (hgood : ¬ ifs.eof = true) :
    ifs.getline.2.remaining < ifs.remaining := by
  obtain ⟨-, ⟨hread, -⟩ | ⟨rest, hread, hrest⟩⟩ := ifs.getline_cases
  · rw [hread, remaining, remaining, if_neg hgood]
    exact Nat.succ_pos _
  · have hlength := congrArg List.length hrest
    rw [List.length_append, List.length_cons] at hlength
    have hrest : IStream.remaining ⟨rest, ifs.eof⟩ = rest.length + 1 := by rw [remaining, if_neg hgood]
    rw [hread, hrest, remaining, if_neg hgood]
    omega

end IStream

/-! ## `Json::convertOffset` -/

/-- The three results that are passed by reference. -/
structure Located where
  line : ℕ
  pos : ℕ
  s : List Bytes

/-- `t` is the line that was read last, and `k` the size of the lines that were read. -/
def convertLoop (offset : ℕ) (s : List Bytes) (ifs : IStream) (t : Bytes) (line k : ℕ) : Bool × Located :=
  if hend : ifs.eof = true then (false, ⟨line, 0, s⟩)
  else
    let prev := t
    let read := ifs.getline
    let k := u64 (k + (read.1.length + 1))
    let line := u64 (line + 1)
    if k > offset then
      (true, ⟨line, u64 (offset + read.1.length + 1 + 2 ^ 64 - k + 1), (if prev = [] then [] else [prev]) ++ [read.1]⟩)
    else convertLoop offset s read.2 read.1 line k
termination_by ifs.remaining
decreasing_by exact IStream.getline_remaining hend

def convertOffset (ifs : IStream) (offset : ℕ) (s : List Bytes) : Bool × Located := convertLoop offset s ifs [] 0 0

def FileContent.ifstream (content : FileContent) : IStream := ⟨content.bytes, false⟩

/-! ## `ConfigFile::read` -/

/-- The line below the offending one. -/
def caret (pos : ℕ) : Bytes := (if pos > 0 then List.replicate (pos - 1) (UInt8.ofNat 32) else []) ++ ascii "^"

/-- The messages for an error at `offset`, of which `what` is the text. -/
def parseErrorMessages (fileName : Bytes) (content : FileContent) (offset : ℕ) (what : Bytes) : List Bytes :=
  match convertOffset content.ifstream offset [] with
  | (true, found) =>
    found.s.map cStr ++
      [caret found.pos, fileName ++ ascii "<line:" ++ ascii (toString found.line) ++ ascii ", position:" ++
        ascii (toString found.pos) ++ ascii ">: \"" ++ what ++ ascii "\""]
  | (false, _) => [fileName ++ ascii "<offset:" ++ ascii (toString offset) ++ ascii ">: \"" ++ what ++ ascii "\""]

/-! ## What is found -/

/-- `prev` is the line that ends where `before` does, and empty when there is none. -/
def Precedes (text before rest prev : Bytes) : Prop :=
  before = [] ∧ prev = [] ∨
    ∃ earlier, before = earlier ++ prev ++ [newline] ∧ Line newline text earlier prev (newline :: rest)

/-- The caret is below the byte at `offset`, or behind the line when that byte is what ends it. -/
def Under (caretLine text shown : Bytes) (offset : ℕ) : Prop :=
  ∃ column, caretLine = List.replicate column (UInt8.ofNat 32) ++ ascii "^" ∧ column ≤ shown.length ∧
    (column < shown.length → shown[column]? = text[offset]?) ∧
    (column = shown.length → text[offset]? = none ∨ text[offset]? = some newline)

structure Locates (text : Bytes) (offset : ℕ) (found : Located) : Prop where
  line : found.line = 1 + (text.take offset).count newline
  place : ∃ before line after prev, Line newline text before line after ∧ Within before line offset ∧
    Precedes text before (line ++ after) prev ∧ found.pos = 1 + (offset - before.length) ∧
    found.s = (if prev = [] then [] else [prev]) ++ [line] ∧ Under (caret found.pos) text line offset

def Finds (text : Bytes) (offset : ℕ) (result : Bool × Located) : Prop :=
  (result.1 = true ↔ offset ≤ text.length) ∧ (result.1 = true → Locates text offset result.2)

variable {text before line after prev rest t : Bytes} {offset : ℕ} {s : List Bytes} {ifs : IStream}

theorem Precedes.begins (h : Precedes text before rest prev) : Begins newline before := by
  obtain ⟨hfirst, -⟩ | ⟨earlier, hbefore, -⟩ := h
  · exact Or.inl hfirst
  · exact Or.inr ⟨_, hbefore⟩

theorem caret_succ (column : ℕ) : caret (1 + column) = List.replicate column (UInt8.ofNat 32) ++ ascii "^" := by
  rw [caret, if_pos (by omega), Nat.add_sub_cancel_left]

theorem under_caret (hline : Line newline text before line after) (hwithin : Within before line offset) :
    Under (caret (1 + (offset - before.length))) text line offset := by
  obtain ⟨hmin, hmax⟩ := hwithin
  obtain ⟨hinside, hend⟩ := hline.getElem? hmin
  refine ⟨offset - before.length, caret_succ _, by omega, ?_, ?_⟩
  · intro hlt
    exact hinside (by omega)
  · intro heq
    exact hend (by omega)

/-- The loop stops in the line of the offset. -/
theorem finds_of_within (hsize : text.length + 1 < 2 ^ 64) (hline : Line newline text before line after)
    (hwithin : Within before line offset) (hprev : Precedes text before (line ++ after) prev) :
    Finds text offset
      (true, ⟨u64 (before.count newline + 1),
        u64 (offset + line.length + 1 + 2 ^ 64 - (before.length + (line.length + 1)) + 1),
        (if prev = [] then [] else [prev]) ++ [line]⟩) := by
  obtain ⟨hmin, hmax⟩ := hwithin
  have hlength : before.length + line.length + after.length = text.length := by
    rw [hline.split, List.length_append, List.length_append]
  have hcount : before.count newline ≤ before.length := List.count_le_length
  have hnumber : u64 (before.count newline + 1) = 1 + (text.take offset).count newline := by
    rw [u64_of_lt (by omega), hline.count_take ⟨hmin, hmax⟩, Nat.add_comm]
  have hpos : u64 (offset + line.length + 1 + 2 ^ 64 - (before.length + (line.length + 1)) + 1) =
      1 + (offset - before.length) := by
    have hsub : offset + line.length + 1 + 2 ^ 64 - (before.length + (line.length + 1)) + 1 =
        1 + (offset - before.length) + 2 ^ 64 := by omega
    rw [hsub, u64_add_two_pow (by omega)]
  refine ⟨iff_of_true rfl (by omega), fun _ => ⟨hnumber, before, line, after, prev, hline, ⟨hmin, hmax⟩, hprev, hpos, rfl, ?_⟩⟩
  show Under (caret (u64 _)) text line offset
  rw [hpos]
  exact under_caret hline ⟨hmin, hmax⟩

/-- A line that is read and does not reach the offset becomes the previous one. -/
theorem Precedes.next (hsplit : text = before ++ (line ++ newline :: rest)) (hprev : Precedes text before (line ++ newline :: rest) prev)
    (hfree : newline ∉ line) : Precedes text (before ++ line ++ [newline]) rest line :=
  Or.inr ⟨before, rfl, Line.next hsplit hprev.begins hfree⟩

/-- By induction on what is not read yet: `before` was read, and `t` is its last line. -/
theorem convertLoop_finds (hsize : text.length + 1 < 2 ^ 64) (hgood : ifs.eof = false)
    (hsplit : text = before ++ ifs.rest) (hprev : Precedes text before ifs.rest t) (hmin : before.length ≤ offset) :
    Finds text offset (convertLoop offset s ifs t (before.count newline) before.length) := by
  induction hn : ifs.remaining using Nat.strong_induction_on generalizing ifs before t with
  | _ n ih =>
    have hnot : ¬ ifs.eof = true := by rw [hgood]; exact Bool.false_ne_true
    have hless := IStream.getline_remaining hnot
    have hlength := congrArg List.length hsplit
    have hcount : before.count newline ≤ before.length := List.count_le_length
    rw [convertLoop, dif_neg hnot]
    obtain ⟨hfree, hread⟩ := ifs.getline_cases
    generalize ifs.getline = read at hless hfree hread ⊢
    obtain ⟨line, ifs'⟩ := read
    dsimp only at hless hfree hread ⊢
    obtain ⟨rfl, hrest⟩ | ⟨rest, rfl, hrest⟩ := hread
    · rw [hrest] at hsplit hprev hlength
      rw [List.length_append] at hlength
      rw [u64_of_lt (by omega : before.length + (line.length + 1) < 2 ^ 64)]
      split
      · have hline := Line.last hsplit hprev.begins hfree
        exact finds_of_within hsize hline ⟨hmin, by omega⟩ (by rw [List.append_nil]; exact hprev)
      · rw [convertLoop, dif_pos rfl]
        exact ⟨iff_of_false Bool.false_ne_true (by omega), fun h => absurd h Bool.false_ne_true⟩
    · rw [hrest] at hsplit hprev hlength
      rw [List.length_append, List.length_append, List.length_cons] at hlength
      rw [u64_of_lt (by omega : before.length + (line.length + 1) < 2 ^ 64)]
      split
      · have hline := Line.next hsplit hprev.begins hfree
        exact finds_of_within hsize hline ⟨hmin, by omega⟩ hprev
      · have hnext := hprev.next hsplit hfree
        have hcount' : (before ++ line ++ [newline]).count newline = u64 (before.count newline + 1) := by
          rw [u64_of_lt (by omega), List.count_append, List.count_append, List.count_eq_zero_of_not_mem hfree]
          rfl
        have hlength' : (before ++ line ++ [newline]).length = before.length + (line.length + 1) := by
          rw [List.length_append, List.length_append, Nat.add_assoc]
          rfl
        have hsplit' : text = before ++ line ++ [newline] ++ rest := by
          rw [hsplit]
          simp
        rw [← hcount', ← hlength']
        exact ih _ (hn ▸ hless) hgood hsplit' hnext (by omega) rfl

theorem convertOffset_finds (content : FileContent) (offset : ℕ) (s : List Bytes) :
    Finds content.bytes offset (convertOffset content.ifstream offset s) := by
  have hsize : content.bytes.length + 1 < 2 ^ 64 := lt_of_lt_of_le (Nat.succ_lt_succ content.size_lt) (by decide)
  show Finds _ _ (convertLoop offset s content.ifstream [] (([] : Bytes).count newline) ([] : Bytes).length)
  exact convertLoop_finds hsize rfl rfl (Or.inl ⟨rfl, rfl⟩) (Nat.zero_le offset)

/-- The offending line and the caret are what is printed. -/
theorem parseErrorMessages_eq {content : FileContent} {found : Located} (fileName what : Bytes)
    (h : convertOffset content.ifstream offset [] = (true, found)) :
    ∃ message, parseErrorMessages fileName content offset what = found.s.map cStr ++ [caret found.pos, message] := by
  rw [parseErrorMessages, h]
  exact ⟨_, rfl⟩

/-- **Parse errors are located.** -/
theorem offset_located (content : FileContent) (offset : ℕ) (s : List Bytes) (fileName what : Bytes) :
    Finds content.bytes offset (convertOffset content.ifstream offset s) ∧
      (offset ≤ content.bytes.length → ∃ found message, convertOffset content.ifstream offset [] = (true, found) ∧
        Locates content.bytes offset found ∧
        parseErrorMessages fileName content offset what = found.s.map cStr ++ [caret found.pos, message]) := by
  refine ⟨convertOffset_finds content offset s, fun hoffset => ?_⟩
  obtain ⟨hfound, hlocates⟩ := convertOffset_finds content offset []
  have htrue := hfound.mpr hoffset
  have heq : convertOffset content.ifstream offset [] = (true, (convertOffset content.ifstream offset []).2) :=
    Prod.ext htrue rfl
  obtain ⟨message, hmessages⟩ := parseErrorMessages_eq fileName what heq
  exact ⟨_, message, heq, hlocates htrue, hmessages⟩

/-- The end of a file of two lines, of which the second one is empty. -/
theorem offset_located_last : ∃ found message,
    convertOffset (FileContent.ifstream ⟨[97, 10], by decide⟩) 2 [] = (true, found) ∧ Locates [97, 10] 2 found ∧
      parseErrorMessages [] ⟨[97, 10], by decide⟩ 2 [] = found.s.map cStr ++ [caret found.pos, message] :=
  (offset_located ⟨[97, 10], by decide⟩ 2 [] [] []).2 (by decide)

end NoncesHeatmap
