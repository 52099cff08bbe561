import NoncesHeatmap.Json.Writer

/-! # Documents in files

`Json::save` opens the file for writing, which empties it, and puts the text of the document. `Json::get` takes
the text of a file for a document if it is one of an array or an object. A text of the grammar goes on as a
text of the grammar whatever stands behind it, so no beginning of the text of an array or object is one
itself: a file that was cut off is never taken for another document. -/

namespace NoncesHeatmap.Json
open Numerals
set_option autoImplicit false

/-- The flags of `Json::get`: comments and trailing commas. -/
def fileFlags : ParseFlags := ⟨true, true⟩

/-- `Json::get` of a file that cannot be opened, or of its bytes. -/
def get (tooBig : Bytes → Bool) (file : Option Bytes) : Option Value :=
  match file with
  | none => none
  | some bytes =>
    match parse fileFlags tooBig bytes with
    | .ok doc => if doc.isObject || doc.isArray then some doc else none
    | .error _ => none

variable {flags : ParseFlags} {tooBig : Bytes → Bool} {s s1 r : Bytes} {v : Value}

/-! ## A text with more behind it -/

theorem Blank.append {comments : Bool} (h : Blank comments s r) (q : Bytes) : Blank comments (s ++ q) (r ++ q) := by
  induction h with
  | nil s => exact .nil _
  | space hc _ ih => exact .space hc ih
  | block hcomments hzero hbody _ ih =>
    rw [List.cons_append, List.cons_append, List.append_assoc]
    exact .block hcomments hzero hbody ih
  | line hcomments hzero hbody _ ih =>
    rw [List.cons_append, List.cons_append, List.append_assoc]
    exact .line hcomments hzero hbody ih

theorem Escape.append {bytes : Bytes} (h : Escape s bytes r) (q : Bytes) : Escape (s ++ q) bytes (r ++ q) := by
  cases h with
  | letter hmem => exact .letter hmem
  | unicode hds hlead =>
    rw [List.cons_append, List.cons_append, List.append_assoc]
    exact .unicode hds hlead
  | pair hds hlead hes htrail =>
    rw [List.cons_append, List.cons_append, List.append_assoc, List.cons_append, List.cons_append, List.append_assoc]
    exact .pair hds hlead hes htrail

theorem Chars.append {str : Bytes} (h : Chars s str r) (q : Bytes) : Chars (s ++ q) str (r ++ q) := by
  induction h with
  | close s => exact .close _
  | plain hlow hquote hback _ ih => exact .plain hlow hquote hback ih
  | escape hescape _ ih => exact .escape (hescape.append q) ih

mutual

/-- What stands behind a value changes nothing in it. -/
theorem Derives.append : ∀ {s r : Bytes} {v : Value}, Derives flags tooBig s v r → ∀ q, Derives flags tooBig (s ++ q) v (r ++ q)
  | _, _, _, .null s, q => by
    rw [List.append_assoc]
    exact .null _
  | _, _, _, .bool b s, q => by
    rw [List.append_assoc]
    exact .bool b _
  | _, _, _, .string h, q => .string (h.append q)
  | _, _, _, .number h, q => by
    rw [List.append_assoc]
    exact .number h
  | _, _, _, .emptyArray h, q => .emptyArray (h.append q)
  | _, _, _, .array h helements, q => .array (h.append q) (helements.append q)
  | _, _, _, .emptyObject h, q => .emptyObject (h.append q)
  | _, _, _, .object h hmembers, q => .object (h.append q) (hmembers.append q)

theorem Elements.append : ∀ {s r : Bytes} {elements : List Value}, Elements flags tooBig s elements r →
    ∀ q, Elements flags tooBig (s ++ q) elements (r ++ q)
  | _, _, _, .last hv h, q => .last (hv.append q) (h.append q)
  | _, _, _, .trailing hflag hv h h', q => .trailing hflag (hv.append q) (h.append q) (h'.append q)
  | _, _, _, .cons hv h h' helements, q => .cons (hv.append q) (h.append q) (h'.append q) (helements.append q)

theorem Member.append : ∀ {s r : Bytes} {m : String × Value}, Member flags tooBig s m r →
    ∀ q, Member flags tooBig (s ++ q) m (r ++ q)
  | _, _, _, .mk hname h h' hv, q => .mk (hname.append q) (h.append q) (h'.append q) (hv.append q)

theorem Members.append : ∀ {s r : Bytes} {members : List (String × Value)}, Members flags tooBig s members r →
    ∀ q, Members flags tooBig (s ++ q) members (r ++ q)
  | _, _, _, .last hm h, q => .last (hm.append q) (h.append q)
  | _, _, _, .trailing hflag hm h h', q => .trailing hflag (hm.append q) (h.append q) (h'.append q)
  | _, _, _, .cons hm h h' hmembers, q => .cons (hm.append q) (h.append q) (h'.append q) (hmembers.append q)

end

/-! ## Arrays and objects -/

/-- A value is an array or an object exactly if its text opens one. -/
theorem Derives.opens (h : Derives flags tooBig s v r) :
    (v.isObject || v.isArray) = true ↔ peek s = leftBrace ∨ peek s = leftBracket := by
  have closed : ∀ c : UInt8, (c ≠ leftBrace ∧ c ≠ leftBracket) → ¬ (c = leftBrace ∨ c = leftBracket) :=
    fun c hc h => h.elim hc.1 hc.2
  cases h with
  | number ht =>
    have hnumber : (v.isObject || v.isArray) = false := by cases ht <;> rfl
    have hbrace := number_ne ht r (c := leftBrace) (by decide)
    have hbracket := number_ne ht r (c := leftBracket) (by decide)
    simp [hnumber, hbrace, hbracket]
  | null => exact iff_of_false Bool.false_ne_true (closed 110 (by decide))
  | bool b =>
    cases b with
    | true => exact iff_of_false Bool.false_ne_true (closed 116 (by decide))
    | false => exact iff_of_false Bool.false_ne_true (closed 102 (by decide))
  | string => exact iff_of_false Bool.false_ne_true (closed quote (by decide))
  | emptyArray => exact iff_of_true rfl (Or.inr rfl)
  | array => exact iff_of_true rfl (Or.inr rfl)
  | emptyObject => exact iff_of_true rfl (Or.inl rfl)
  | object => exact iff_of_true rfl (Or.inl rfl)

theorem follows_of_opens (h : (v.isObject || v.isArray) = true) (r : Bytes) : Follows v r := by
  rcases Bool.or_eq_true_iff.mp h with hobject | harray
  · exact Or.inl hobject
  · exact Or.inr (Or.inl harray)

/-- The end of an array or object is where its text says, whatever stands behind it. -/
theorem Derives.unique {w : Value} {r' : Bytes} (h : Derives flags tooBig s v r) (h' : Derives flags tooBig s w r')
    (hopens : (v.isObject || v.isArray) = true) : v = w ∧ r = r' := by
  have hopens' : (w.isObject || w.isArray) = true := h'.opens.mpr (h.opens.mp hopens)
  have hparse : parseValue flags tooBig (3 * s.length) s = .ok (v, r) :=
    parseValue_complete h (follows_of_opens hopens r) (by omega)
  have hparse' : parseValue flags tooBig (3 * s.length) s = .ok (w, r') :=
    parseValue_complete h' (follows_of_opens hopens' r') (by omega)
  have hboth := hparse.symm.trans hparse'
  injection hboth with hpair
  injection hpair with hvalue hrest
  exact ⟨hvalue, hrest⟩

theorem Blank.eq_of_opens {comments : Bool} (h : Blank comments s r) (hopens : peek s = leftBrace ∨ peek s = leftBracket) :
    r = s := by
  cases h with
  | nil => rfl
  | @space c s _ hc _ =>
    rw [peek_cons] at hopens
    rcases hopens with rfl | rfl <;> exact absurd hc (by decide)
  | block =>
    rw [peek_cons] at hopens
    exact absurd hopens (by decide)
  | line =>
    rw [peek_cons] at hopens
    exact absurd hopens (by decide)

theorem get_eq_some {bytes : Bytes} {doc : Value} :
    get tooBig (some bytes) = some doc ↔ Document fileFlags tooBig bytes doc ∧ (doc.isObject || doc.isArray) = true := by
  rw [get]
  constructor
  · intro h
    split at h
    · next w hparse =>
      split at h
      · next hopens =>
        obtain rfl := Option.some.inj h
        exact ⟨parse_sound hparse, hopens⟩
      · cases h
    · cases h
  · rintro ⟨hdoc, hopens⟩
    rw [parse_complete hdoc]
    exact if_pos hopens

/-- No proper beginning of the text of an array or object is a document. -/
theorem parse_beginning {bytes : Bytes} {doc : Value} (h : Derives flags tooBig bytes doc [])
    (hopens : (doc.isObject || doc.isArray) = true) {n : ℕ} (hn : n < bytes.length) :
    ∃ e, parse flags tooBig (bytes.take n) = .error e := by
  cases hparse : parse flags tooBig (bytes.take n) with
  | error e => exact ⟨e, rfl⟩
  | ok w =>
    obtain ⟨s1, s2, hblank, hderives, -⟩ := parse_sound hparse
    have hne : n ≠ 0 := by
      rintro rfl
      have hstarts := hderives.starts
      have hlength := hblank.length
      rw [List.take_zero, List.length_nil, Nat.le_zero, List.length_eq_zero_iff] at hlength
      rw [hlength] at hstarts
      exact absurd hstarts (by decide)
    have hpeek : peek (bytes.take n) = peek bytes := by
      cases bytes with
      | nil => rw [List.take_nil]
      | cons c bytes =>
        obtain ⟨n, rfl⟩ := Nat.exists_eq_add_one_of_ne_zero hne
        rfl
    obtain rfl := hblank.eq_of_opens (hpeek ▸ h.opens.mp hopens)
    have hlonger := hderives.append (bytes.drop n)
    rw [List.take_append_drop] at hlonger
    obtain ⟨-, hend⟩ := h.unique hlonger hopens
    have hdrop := (List.append_eq_nil_iff.mp hend.symm).2
    exact absurd (List.drop_eq_nil_iff.mp hdrop) (Nat.not_le.mpr hn)

/-! ## `Json::save` -/

/-- The format of `Json::save`: four blanks; `singleLineArray` is the build with `XMRIG_JSON_SINGLE_LINE_ARRAY`. -/
def fileFormat (singleLineArray : Bool) : Format := .pretty ⟨space, 4, singleLineArray, by decide⟩

/-- `Json::save` to a file that can be opened: the bytes that the writer puts into it. -/
def save (dtoa : String → Bytes) (singleLineArray : Bool) (doc : Value) : Option Bytes :=
  written dtoa (fileFormat singleLineArray) doc

/-- A document that can be written has a text, of which only the whole is a document. -/
theorem get_written (tooBig : Bytes → Bool) (dtoa : String → Bytes) (format : Format) {doc : Value} (h : Writable doc)
    (hopens : (doc.isObject || doc.isArray) = true) :
    ∃ bytes, written dtoa format doc = some bytes ∧ get tooBig (some bytes) = some doc ∧
      ∀ n < bytes.length, ∃ e, parse fileFlags tooBig (bytes.take n) = .error e := by
  obtain ⟨bytes, hwritten, hderives⟩ := written_derives fileFlags tooBig dtoa format h
  have hwhole : get tooBig (some bytes) = some doc :=
    get_eq_some.mpr ⟨⟨bytes, [], .nil _, hderives, .blank (.nil []) rfl⟩, hopens⟩
  exact ⟨bytes, hwritten, hwhole, fun n hn => parse_beginning hderives hopens hn⟩

/-! ## The strings of a document -/

/-- A string of bytes. -/
def OfBytes (s : String) : Prop := text (ascii s) = s

theorem ofBytes_iff {s : String} : OfBytes s ↔ ∀ c ∈ s.toList, Char.ofNat (UInt8.ofNat c.toNat).toNat = c := by
  have hlist : text (ascii s) = String.ofList (s.toList.map fun c => Char.ofNat (UInt8.ofNat c.toNat).toNat) := by
    rw [text, ascii, List.map_map]
    rfl
  rw [OfBytes, hlist]
  constructor
  · intro h
    have hmap := congrArg String.toList h
    rw [String.toList_ofList] at hmap
    exact List.map_eq_map_iff.mp (hmap.trans (List.map_id' _).symm)
  · intro h
    rw [List.map_congr_left h, List.map_id', String.ofList_toList]

theorem ascii_text (bytes : Bytes) : ascii (text bytes) = bytes := by
  have hbyte : ∀ b : UInt8, UInt8.ofNat (Char.ofNat b.toNat).toNat = b := forall_byte (by decide +kernel)
  rw [ascii, text, String.toList_ofList, List.map_map]
  exact (List.map_congr_left fun b _ => hbyte b).trans (List.map_id' _)

theorem ofBytes_text (bytes : Bytes) : OfBytes (text bytes) := by
  rw [OfBytes, ascii_text]

mutual

/-- Every string in a value is one of bytes. -/
def Bytewise : Value → Prop
  | .string s => OfBytes s
  | .array elements => BytewiseElements elements
  | .object members => BytewiseMembers members
  | _ => True

def BytewiseElements : List Value → Prop
  | [] => True
  | v :: elements => Bytewise v ∧ BytewiseElements elements

def BytewiseMembers : List (String × Value) → Prop
  | [] => True
  | (_, v) :: members => Bytewise v ∧ BytewiseMembers members

end

mutual

theorem Derives.bytewise : ∀ {s r : Bytes} {v : Value}, Derives flags tooBig s v r → Bytewise v
  | _, _, _, .null _ => trivial
  | _, _, _, .bool _ _ => trivial
  | _, _, _, .string _ => ofBytes_text _
  | _, _, _, .number h => by cases h <;> trivial
  | _, _, _, .emptyArray _ => trivial
  | _, _, _, .array _ helements => helements.bytewise
  | _, _, _, .emptyObject _ => trivial
  | _, _, _, .object _ hmembers => hmembers.bytewise

theorem Elements.bytewise : ∀ {s r : Bytes} {elements : List Value}, Elements flags tooBig s elements r →
    BytewiseElements elements
  | _, _, _, .last hv _ => ⟨hv.bytewise, trivial⟩
  | _, _, _, .trailing _ hv _ _ => ⟨hv.bytewise, trivial⟩
  | _, _, _, .cons hv _ _ helements => ⟨hv.bytewise, helements.bytewise⟩

theorem Members.bytewise : ∀ {s r : Bytes} {members : List (String × Value)}, Members flags tooBig s members r →
    BytewiseMembers members
  | _, _, _, .last (.mk _ _ _ hv) _ => ⟨hv.bytewise, trivial⟩
  | _, _, _, .trailing _ (.mk _ _ _ hv) _ _ => ⟨hv.bytewise, trivial⟩
  | _, _, _, .cons (.mk _ _ _ hv) _ _ hmembers => ⟨hv.bytewise, hmembers.bytewise⟩

end

theorem Bytewise.findMember {obj : Value} (h : Bytewise obj) {key : String} (hfind : obj.findMember key = some v) :
    Bytewise v := by
  cases obj with
  | object members =>
    have hmembers : BytewiseMembers members := h
    have hlookup : members.lookup key = some v := hfind
    clear h hfind
    induction members with
    | nil => cases hlookup
    | cons m members ih =>
      rw [List.lookup_cons] at hlookup
      split at hlookup
      · obtain rfl := Option.some.inj hlookup
        exact hmembers.1
      · exact ih hmembers.2 hlookup
  | _ => cases hfind

theorem Bytewise.getObject {obj : Value} (h : Bytewise obj) (key : String) : Bytewise (Json.getObject obj key) := by
  rw [Json.getObject, Json.getWith]
  split
  · trivial
  · split
    · next member hmember =>
      rw [Value.asObject]
      split
      · exact h.findMember hmember
      · trivial
    · trivial

theorem Bytewise.getString {obj : Value} (h : Bytewise obj) {key s : String} (hs : Json.getString obj key = some s) :
    OfBytes s := by
  rw [Json.getString, Json.getWith] at hs
  split at hs
  · cases hs
  · split at hs
    · next member hmember =>
      have hbytes := h.findMember hmember
      cases member with
      | string s' =>
        obtain rfl : s' = s := Option.some.inj hs
        exact hbytes
      | _ => cases hs
    · cases hs

theorem get_of_error {bytes : Bytes} {e : ParseError} (h : parse fileFlags tooBig bytes = .error e) :
    get tooBig (some bytes) = none := by
  rw [get, h]

end NoncesHeatmap.Json
