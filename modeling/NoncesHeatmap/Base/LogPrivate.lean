import Mathlib.Data.Nat.Digits.Lemmas
import NoncesHeatmap.Base.Escapes

/-! # `LogPrivate::print`

The buffer `m_buf` holds the timestamp, the colour, the message as far as `vsnprintf` takes it, and the end
of the line. What `vsnprintf` makes of the format and its arguments is the message; the time is what
`localtime_r` makes of it. Both texts go to every backend, and `ConsoleLog` prints them as C strings. -/

namespace NoncesHeatmap.LogPrivate
set_option autoImplicit false

def kMaxBufferSize : ℕ := 16384

inductive Level where
  | NONE
  | EMERG
  | ALERT
  | CRIT
  | ERR
  | WARNING
  | NOTICE
  | INFO
  | DEBUG
deriving DecidableEq

def colorsMap : Level → Option Bytes
  | .NONE => none
  | .EMERG | .ALERT | .CRIT => some (csi ++ ascii "1;31m")
  | .ERR => some (csi ++ ascii "0;31m")
  | .WARNING => some (csi ++ ascii "0;33m")
  | .NOTICE => some (csi ++ ascii "1;37m")
  | .INFO => none
  | .DEBUG => some (csi ++ ascii "0;90m")

/-- The members of `tm` that are printed. -/
structure Tm where
  year : ℕ
  mon : ℕ
  mday : ℕ
  hour : ℕ
  min : ℕ
  sec : ℕ
  year_lt : year + 1900 < 2 ^ 31
  mon_lt : mon < 12
  mday_le : mday ≤ 31
  hour_lt : hour < 24
  min_lt : min < 60
  sec_le : sec ≤ 60

/-- `%d` -/
def decimal (n : ℕ) : Bytes := if n = 0 then [48] else (Nat.digits 10 n).reverse.map fun d => UInt8.ofNat (48 + d)

/-- `%02d` and `%03d` -/
def padded (width n : ℕ) : Bytes := List.replicate (width - (decimal n).length) 48 ++ decimal n

def dateText (t : Tm) : Bytes :=
  ascii "[" ++ decimal (t.year + 1900) ++ ascii "-" ++ padded 2 (t.mon + 1) ++ ascii "-" ++ padded 2 t.mday ++
    ascii " " ++ padded 2 t.hour ++ ascii ":" ++ padded 2 t.min ++ ascii ":" ++ padded 2 t.sec

def timestampText (t : Tm) (ms : ℕ) : Bytes :=
  dateText t ++ (csi ++ ascii "1;30m") ++ (ascii "." ++ padded 3 (ms % 1000)) ++ (csi ++ ascii "0m") ++ ascii "] "

/-- `m_buf`, and whether all writes were inside it. -/
structure LogBuffer where
  bytes : Bytes
  safe : Bool

namespace LogBuffer

def memcpy (pos : ℕ) (src : Bytes) (b : LogBuffer) : LogBuffer :=
  ⟨b.bytes.take pos ++ src ++ b.bytes.drop (pos + src.length), b.safe && decide (pos + src.length ≤ b.bytes.length)⟩

/-- `snprintf` into the buffer at `pos`: the result is the length of the whole text, and negative (`none`)
when that is no `int`. -/
def snprintf (pos limit : ℕ) (s : Bytes) (b : LogBuffer) : Option ℕ × LogBuffer :=
  (if s.length < 2 ^ 31 then some s.length else none, b.memcpy pos (s.take (limit - 1) ++ [0]))

end LogBuffer

/-- The offset, which is also the size, and the buffer. -/
def timestamp (level : Level) (t : Tm) (ms : ℕ) (b : LogBuffer) : ℕ × LogBuffer :=
  if level = .NONE then (0, b)
  else
    let (rc, b) := b.snprintf 0 (kMaxBufferSize - 1) (timestampText t ms)
    (rc.getD 0, b)

def color (level : Level) (size : ℕ) (b : LogBuffer) : ℕ × LogBuffer :=
  match colorsMap level with
  | none => (size, b)
  | some color => (size + color.length, b.memcpy size color)

def endl (size : ℕ) (b : LogBuffer) : ℕ × LogBuffer := (size + 5, b.memcpy size (csi ++ ascii "0m" ++ [newline, 0]))

/-- `sizeof (m_buf) - offset - 32` -/
def room (offset : ℕ) : ℕ := u64 (kMaxBufferSize + 2 ^ 64 - offset - 32)

/-- The buffer with the line, and the offset and the size; `none` when `vsnprintf` fails. -/
def format (level : Level) (t : Tm) (ms : ℕ) (message : Bytes) (b : LogBuffer) : LogBuffer × Option (ℕ × ℕ) :=
  let (offset, b) := timestamp level t ms b
  let (size, b) := color level offset b
  let (rc, b) := b.snprintf size (room offset) message
  match rc with
  | none => (b, none)
  | some rc =>
    let (size, b) := endl (size + min rc (room offset)) b
    (b, some (offset, size))

/-- A call of `ILogBackend::print`. -/
structure BackendCall where
  line : Bytes
  offset : ℕ
  size : ℕ
  colors : Bool

inductive Printed where
  | nothing
  /-- The loop has not ended. -/
  | looping
  /-- Every backend gets both. -/
  | backends (colored plain : BackendCall)
  | stdout (txt : Bytes)

/-- `background` is `Log::isBackground()`, and `fuel` bounds the rounds of the loop. -/
def print (fuel : ℕ) (background hasBackends : Bool) (level : Level) (t : Tm) (ms : ℕ) (message : Bytes)
    (b : LogBuffer) : LogBuffer × Printed :=
  if background && !hasBackends then (b, .nothing)
  else
    match format level t ms message b with
    | (b, none) => (b, .nothing)
    | (b, some (offset, size)) =>
      match strip fuel (cStr b.bytes) with
      | none => (b, .looping)
      | some txt =>
        if hasBackends then
          (b, .backends ⟨b.bytes, offset, size, true⟩ ⟨txt, if offset ≠ 0 then offset - 11 else 0, txt.length, false⟩)
        else (b, .stdout txt)

/-! ## The bytes of the prefix -/

/-- Bytes that neither end a string or a line nor belong to a sequence. -/
def Inert (w : Bytes) : Prop := ∀ b ∈ w, b ≠ 0 ∧ b ≠ newline ∧ b ≠ esc ∧ b ≠ letterM

instance (w : Bytes) : Decidable (Inert w) := inferInstanceAs (Decidable (∀ b ∈ w, _))

@[simp] theorem inert_append {v w : Bytes} : Inert (v ++ w) ↔ Inert v ∧ Inert w := List.forall_mem_append

@[simp] theorem inert_decimal (n : ℕ) : Inert (decimal n) := by
  have hdigit : ∀ d < 10, UInt8.ofNat (48 + d) ≠ 0 ∧ UInt8.ofNat (48 + d) ≠ newline ∧ UInt8.ofNat (48 + d) ≠ esc ∧
      UInt8.ofNat (48 + d) ≠ letterM := by decide
  rw [decimal]
  split
  · decide +kernel
  · intro b hb
    obtain ⟨d, hd, rfl⟩ := List.mem_map.mp hb
    exact hdigit d (Nat.digits_lt_base (by decide) (List.mem_reverse.mp hd))

@[simp] theorem inert_padded (width n : ℕ) : Inert (padded width n) := by
  rw [padded, inert_append]
  refine ⟨?_, inert_decimal n⟩
  intro b hb
  rw [List.eq_of_mem_replicate hb]
  decide

theorem Inert.esc_notMem {w : Bytes} (h : Inert w) : esc ∉ w := fun hmem => (h esc hmem).2.2.1 rfl

theorem Inert.getLast?_ne {w : Bytes} (h : Inert w) : w.getLast? ≠ some esc ∧ w.getLast? ≠ some newline :=
  ⟨fun hlast => (h esc (List.mem_of_getLast? hlast)).2.2.1 rfl,
    fun hlast => (h newline (List.mem_of_getLast? hlast)).2.1 rfl⟩

theorem length_decimal {n : ℕ} (h : n < 2 ^ 31) : (decimal n).length ≤ 10 := by
  rw [decimal]
  split
  · decide
  · rw [List.length_map, List.length_reverse, Nat.digits_length_le_iff (by decide)]
    exact h.trans (by decide)

theorem length_padded {width n : ℕ} (hwidth : width ≤ 10) (h : n < 2 ^ 31) : (padded width n).length ≤ 10 := by
  have hdecimal := length_decimal h
  rw [padded, List.length_append, List.length_replicate]
  omega

theorem inert_dateText (t : Tm) : Inert (dateText t) := by
  have hascii : ∀ s ∈ ["[", "-", " ", ":"], Inert (ascii s) := by decide +kernel
  simp [dateText, hascii]

theorem length_dateText (t : Tm) : (dateText t).length ≤ 66 := by
  have hyear := length_decimal t.year_lt
  have hmon : (padded 2 (t.mon + 1)).length ≤ 10 := length_padded (by decide) (lt_of_lt_of_le (Nat.succ_lt_succ t.mon_lt) (by decide))
  have hmday : (padded 2 t.mday).length ≤ 10 := length_padded (by decide) (lt_of_le_of_lt t.mday_le (by decide))
  have hhour : (padded 2 t.hour).length ≤ 10 := length_padded (by decide) (t.hour_lt.trans (by decide))
  have hmin : (padded 2 t.min).length ≤ 10 := length_padded (by decide) (t.min_lt.trans (by decide))
  have hsec : (padded 2 t.sec).length ≤ 10 := length_padded (by decide) (lt_of_le_of_lt t.sec_le (by decide))
  have hascii : ∀ s ∈ ["[", "-", " ", ":"], (ascii s).length = 1 := by decide
  simp only [dateText, List.length_append, hascii "[" (by decide), hascii "-" (by decide), hascii " " (by decide),
    hascii ":" (by decide)]
  omega

/-! ## What the buffer holds -/

/-- The buffer starts with `x`, and nothing was written outside it. -/
def Starts (x : Bytes) (b : LogBuffer) : Prop := ∃ rest, b = ⟨x ++ rest, true⟩ ∧ x.length + rest.length = kMaxBufferSize

variable {x y s : Bytes} {b : LogBuffer} {level : Level} {t : Tm} {ms : ℕ} {message : Bytes} {limit : ℕ}

theorem Starts.safe (h : Starts x b) : b.safe = true := by
  obtain ⟨rest, rfl, -⟩ := h
  rfl

theorem Starts.left (h : Starts (x ++ y) b) : Starts x b := by
  obtain ⟨rest, rfl, hlength⟩ := h
  rw [List.length_append] at hlength
  exact ⟨y ++ rest, by rw [List.append_assoc], by rw [List.length_append]; omega⟩

theorem Starts.memcpy (h : Starts x b) (src : Bytes) (hfits : x.length + src.length ≤ kMaxBufferSize) :
    Starts (x ++ src) (b.memcpy x.length src) := by
  obtain ⟨rest, rfl, hlength⟩ := h
  refine ⟨rest.drop src.length, ?_, ?_⟩
  · have hbytes : (x ++ rest).take x.length ++ src ++ (x ++ rest).drop (x.length + src.length) =
        x ++ src ++ rest.drop src.length := by
      rw [List.take_left, ← List.drop_drop, List.drop_left]
    have hinside : x.length + src.length ≤ (x ++ rest).length := by
      rw [List.length_append, hlength]
      exact hfits
    rw [LogBuffer.memcpy, hbytes]
    exact congrArg _ (decide_eq_true hinside)
  · rw [List.length_append, List.length_drop]
    omega

theorem Starts.snprintf (h : Starts x b) (hpos : 1 ≤ limit) (hfits : x.length + limit ≤ kMaxBufferSize) :
    Starts (x ++ (s.take (limit - 1) ++ [0])) (b.snprintf x.length limit s).2 := by
  have hlength : (s.take (limit - 1) ++ [0]).length ≤ limit := by
    rw [List.length_append, List.length_take, List.length_singleton]
    omega
  exact h.memcpy _ (by omega)

theorem LogBuffer.snprintf_fst (h : s.length < 2 ^ 31) {pos : ℕ} : (b.snprintf pos limit s).1 = some s.length := if_pos h

theorem cStr_append (hx : 0 ∉ x) (y : Bytes) : cStr (x ++ y) = x ++ cStr y :=
  List.takeWhile_append_of_pos fun b hb => decide_eq_true fun heq : b = 0 => hx (heq ▸ hb)

theorem cStr_eq_self (hx : 0 ∉ x) : cStr x = x := by
  have happend := cStr_append hx []
  rw [List.append_nil] at happend
  exact happend.trans (List.append_nil x)

theorem ne_zero_of_mem_cStr {c : UInt8} (h : c ∈ cStr x) : c ≠ 0 :=
  of_decide_eq_true (List.mem_takeWhile_imp (p := fun c : UInt8 => decide (c ≠ 0)) h)

theorem cStr_zero (x y : Bytes) : cStr (x ++ 0 :: y) = cStr x := by
  induction x with
  | nil => rfl
  | cons c x ih =>
    show List.takeWhile _ (c :: (x ++ 0 :: y)) = List.takeWhile _ (c :: x)
    rw [List.takeWhile_cons, List.takeWhile_cons]
    split
    · exact congrArg _ ih
    · rfl

theorem Starts.cStr (h : Starts (x ++ 0 :: y) b) : NoncesHeatmap.cStr b.bytes = NoncesHeatmap.cStr x := by
  obtain ⟨rest, rfl, -⟩ := h
  rw [List.append_assoc]
  exact cStr_zero x _

/-! ## The prefix -/

def stampText (level : Level) (t : Tm) (ms : ℕ) : Bytes := if level = .NONE then [] else timestampText t ms

def prefixText (level : Level) (t : Tm) (ms : ℕ) : Bytes := stampText level t ms ++ (colorsMap level).getD []

theorem length_timestampText (t : Tm) (ms : ℕ) : (timestampText t ms).length ≤ 96 := by
  have hdate := length_dateText t
  have hms : (padded 3 (ms % 1000)).length ≤ 10 :=
    length_padded (by decide) ((Nat.mod_lt ms (by decide)).trans (by decide))
  have hascii : (ascii "1;30m").length = 5 ∧ (ascii ".").length = 1 ∧ (ascii "0m").length = 2 ∧ (ascii "] ").length = 2 ∧
      csi.length = 2 := by decide
  simp only [timestampText, List.length_append, hascii]
  omega

theorem length_stampText (level : Level) (t : Tm) (ms : ℕ) : (stampText level t ms).length ≤ 96 := by
  rw [stampText]
  split
  · exact Nat.zero_le _
  · exact length_timestampText t ms

theorem length_color (level : Level) : ((colorsMap level).getD []).length ≤ 7 := by
  cases level <;> decide

theorem room_eq {offset : ℕ} (h : offset ≤ 96) : room offset = 16352 - offset := by
  have hsum : kMaxBufferSize + 2 ^ 64 - offset - 32 = 16352 - offset + 2 ^ 64 := by
    rw [kMaxBufferSize]
    omega
  rw [room, hsum, u64_add_two_pow (by omega)]

theorem starts_timestamp (level : Level) (t : Tm) (ms : ℕ) (h : Starts [] b) :
    (timestamp level t ms b).1 = (stampText level t ms).length ∧ Starts (stampText level t ms) (timestamp level t ms b).2 := by
  rw [timestamp, stampText]
  split
  · exact ⟨rfl, h⟩
  · have hlength := length_timestampText t ms
    generalize timestampText t ms = text at hlength ⊢
    have htake : text.take (kMaxBufferSize - 1 - 1) = text := List.take_of_length_le (by rw [kMaxBufferSize]; omega)
    have hprint : Starts ([] ++ (text.take (kMaxBufferSize - 1 - 1) ++ [0])) (b.snprintf 0 (kMaxBufferSize - 1) text).2 :=
      h.snprintf (by decide) (by decide)
    have hrc : (b.snprintf 0 (kMaxBufferSize - 1) text).1 = some text.length := LogBuffer.snprintf_fst (by omega)
    rw [htake, List.nil_append] at hprint
    generalize b.snprintf 0 (kMaxBufferSize - 1) text = printed at hprint hrc
    obtain ⟨rc, b'⟩ := printed
    obtain rfl : rc = some text.length := hrc
    exact ⟨rfl, hprint.left⟩

theorem starts_color (level : Level) {size : ℕ} (h : Starts x b) (hsize : size = x.length) (hlength : x.length ≤ 96) :
    (color level size b).1 = (x ++ (colorsMap level).getD []).length ∧
      Starts (x ++ (colorsMap level).getD []) (color level size b).2 := by
  subst hsize
  have hcolor := length_color level
  rw [color]
  cases hcode : colorsMap level with
  | none =>
    show x.length = (x ++ []).length ∧ Starts (x ++ []) b
    rw [List.append_nil]
    exact ⟨rfl, h⟩
  | some code =>
    rw [hcode] at hcolor
    have hcolor : code.length ≤ 7 := hcolor
    have hfits : x.length + code.length ≤ kMaxBufferSize := by
      rw [kMaxBufferSize]
      omega
    exact ⟨List.length_append.symm, h.memcpy code hfits⟩

/-! ## The line -/

/-- The size that `vsnprintf` is given: it writes one byte less of the message. -/
def limitOf (level : Level) (t : Tm) (ms : ℕ) : ℕ := room (stampText level t ms).length

def clear : Bytes := csi ++ ascii "0m" ++ [newline]

/-- What follows the prefix up to the first terminator that the line has. -/
def tail (limit : ℕ) (message : Bytes) : Bytes :=
  if message.length < limit then message ++ clear else message.take (limit - 1)

theorem length_prefixText (level : Level) (t : Tm) (ms : ℕ) :
    (prefixText level t ms).length ≤ (stampText level t ms).length + 7 := by
  rw [prefixText, List.length_append]
  exact Nat.add_le_add_left (length_color level) _

theorem limitOf_eq (level : Level) (t : Tm) (ms : ℕ) : limitOf level t ms = 16352 - (stampText level t ms).length :=
  room_eq (length_stampText level t ms)

/-- The end of the line goes behind the message, or behind the terminator of a message that was cut. -/
theorem starts_endl (h : Starts (x ++ (message.take (limit - 1) ++ [0])) b) (hpos : 1 ≤ limit)
    (hfits : x.length + limit + 6 ≤ kMaxBufferSize) :
    ∃ y, Starts (x ++ tail limit message ++ 0 :: y) (endl (x.length + min message.length limit) b).2 := by
  have hclear : (csi ++ ascii "0m" ++ [newline, 0]).length = 6 := by decide
  rw [tail]
  split
  · next hshort =>
    have htake : message.take (limit - 1) = message := List.take_of_length_le (by omega)
    rw [htake, ← List.append_assoc] at h
    have hsize : x.length + min message.length limit = (x ++ message).length := by
      rw [List.length_append, Nat.min_eq_left hshort.le]
    have hend := h.left.memcpy (csi ++ ascii "0m" ++ [newline, 0]) (by rw [hclear, List.length_append]; omega)
    rw [← hsize] at hend
    refine ⟨[], ?_⟩
    have hline : x ++ (message ++ clear) ++ [0] = x ++ message ++ (csi ++ ascii "0m" ++ [newline, 0]) := by
      simp [clear]
    rw [hline]
    exact hend
  · next hlong =>
    have hsize : x.length + min message.length limit = (x ++ (message.take (limit - 1) ++ [0])).length := by
      simp only [List.length_append, List.length_take, List.length_singleton]
      omega
    have hend := h.memcpy (csi ++ ascii "0m" ++ [newline, 0]) (by rw [hclear, ← hsize]; omega)
    rw [← hsize] at hend
    refine ⟨csi ++ ascii "0m" ++ [newline, 0], ?_⟩
    have hline : x ++ message.take (limit - 1) ++ 0 :: (csi ++ ascii "0m" ++ [newline, 0]) =
        x ++ (message.take (limit - 1) ++ [0]) ++ (csi ++ ascii "0m" ++ [newline, 0]) := by
      simp
    rw [hline]
    exact hend

/-- A message whose length is no `int` is not printed; any other one gives a line. -/
theorem format_cases (level : Level) (t : Tm) (ms : ℕ) (message : Bytes) (h : Starts [] b) :
    ∃ b' result, format level t ms message b = (b', result) ∧ Starts [] b' ∧
      (2 ^ 31 ≤ message.length → result = none) ∧
      (message.length < 2 ^ 31 → (∃ size, result = some ((stampText level t ms).length, size)) ∧
        ∃ y, Starts (prefixText level t ms ++ tail (limitOf level t ms) message ++ 0 :: y) b') := by
  have hlength := length_stampText level t ms
  have hprefix := length_prefixText level t ms
  have hlimit := limitOf_eq level t ms
  obtain ⟨hoffset, hstamp⟩ := starts_timestamp level t ms h
  rw [format]
  generalize timestamp level t ms b = stamped at hoffset hstamp
  obtain ⟨offset, b₁⟩ := stamped
  dsimp only at hoffset hstamp ⊢
  obtain ⟨hsize, hcolor⟩ := starts_color level hstamp hoffset hlength
  generalize color level offset b₁ = colored at hsize hcolor
  obtain ⟨size, b₂⟩ := colored
  dsimp only at hsize hcolor ⊢
  rw [← prefixText] at hsize hcolor
  subst hsize hoffset
  rw [← limitOf]
  have hpos : 1 ≤ limitOf level t ms := by omega
  have hfits : (prefixText level t ms).length + limitOf level t ms + 6 ≤ kMaxBufferSize := by
    rw [kMaxBufferSize]
    omega
  have hprinted := hcolor.snprintf (s := message) hpos (by omega)
  have hrc : (b₂.snprintf (prefixText level t ms).length (limitOf level t ms) message).1 =
      if message.length < 2 ^ 31 then some message.length else none := rfl
  generalize b₂.snprintf (prefixText level t ms).length (limitOf level t ms) message = printed at hprinted hrc
  obtain ⟨rc, b₃⟩ := printed
  dsimp only at hprinted hrc ⊢
  by_cases hshort : message.length < 2 ^ 31
  · rw [if_pos hshort] at hrc
    subst hrc
    obtain ⟨y, hline⟩ := starts_endl hprinted hpos hfits
    refine ⟨_, _, rfl, ?_, fun hlong => absurd hlong (not_le.mpr hshort), fun _ => ⟨⟨_, rfl⟩, y, hline⟩⟩
    exact Starts.left (x := []) hline
  · rw [if_neg hshort] at hrc
    subst hrc
    exact ⟨_, _, rfl, Starts.left (x := []) hprinted, fun _ => rfl, fun h => absurd h hshort⟩

/-! ## What is handed over -/

theorem prefixText_bytes (level : Level) (t : Tm) (ms : ℕ) : ∀ b ∈ prefixText level t ms, b ≠ 0 ∧ b ≠ newline := by
  have hinert : ∀ {w : Bytes}, Inert w → ∀ b ∈ w, b ≠ 0 ∧ b ≠ newline := fun h b hb => ⟨(h b hb).1, (h b hb).2.1⟩
  have hcolor : ∀ b ∈ (colorsMap level).getD [], b ≠ 0 ∧ b ≠ newline := by
    cases level <;> decide +kernel
  have hstamp : ∀ b ∈ stampText level t ms, b ≠ 0 ∧ b ≠ newline := by
    rw [stampText]
    split
    · exact fun b hb => absurd hb List.not_mem_nil
    · simp only [timestampText, List.forall_mem_append]
      exact ⟨⟨⟨⟨hinert (inert_dateText t), by decide +kernel⟩, by decide +kernel, hinert (inert_padded _ _)⟩,
        by decide +kernel⟩, by decide +kernel⟩
  exact List.forall_mem_append.mpr ⟨hstamp, hcolor⟩

theorem sequencesEnd_color (level : Level) (before txt : Bytes) :
    sequencesEnd before false ((colorsMap level).getD [] ++ txt) = sequencesEnd before false txt := by
  cases hcode : colorsMap level with
  | none => rfl
  | some code =>
    have hcodes : ∀ level code, colorsMap level = some code →
        ∃ u ∈ [ascii "1;31", ascii "0;31", ascii "0;33", ascii "1;37", ascii "0;90"],
          letterM ∉ u ∧ csi ++ (u ++ [letterM]) = code := by
      rintro (_ | _ | _ | _ | _ | _ | _ | _ | _) code hlevel <;> cases hlevel <;> decide
    obtain ⟨u, -, hu, rfl⟩ := hcodes level code hcode
    have hsplit : csi ++ (u ++ [letterM]) ++ txt = csi ++ (u ++ letterM :: txt) := by simp
    show sequencesEnd before false (csi ++ (u ++ [letterM]) ++ txt) = _
    rw [hsplit, sequencesEnd_sequence hu]

/-- The two sequences of the timestamp. -/
theorem timestampText_append (t : Tm) (ms : ℕ) (rest : Bytes) :
    timestampText t ms ++ rest = dateText t ++ (csi ++ (ascii "1;30" ++ letterM ::
      (ascii "." ++ padded 3 (ms % 1000) ++ (csi ++ (ascii "0" ++ letterM :: (ascii "] " ++ rest)))))) := by
  have hopen : ascii "1;30m" = ascii "1;30" ++ [letterM] := by decide
  have hclear : ascii "0m" = ascii "0" ++ [letterM] := by decide
  rw [timestampText, hopen, hclear]
  simp

/-- The sequences of the prefix are closed, and what is left of it does not end a line. -/
theorem sequencesEnd_prefixText (level : Level) (t : Tm) (ms : ℕ) (txt : Bytes) :
    sequencesEnd [] false (prefixText level t ms ++ txt) = sequencesEnd [] false txt := by
  rw [prefixText, List.append_assoc, stampText]
  split
  · exact sequencesEnd_color level [] txt
  · have hdate := inert_dateText t
    have hms : Inert (ascii "." ++ padded 3 (ms % 1000)) := inert_append.mpr ⟨by decide +kernel, inert_padded _ _⟩
    have hclose : Inert (ascii "] ") := by decide +kernel
    have hmid : Inert (dateText t ++ (ascii "." ++ padded 3 (ms % 1000))) := inert_append.mpr ⟨hdate, hms⟩
    have hall := inert_append.mpr ⟨hmid, hclose⟩
    rw [timestampText_append, sequencesEnd_plain hdate.esc_notMem (by simp), List.nil_append,
      sequencesEnd_sequence (by decide), sequencesEnd_plain hms.esc_notMem hdate.getLast?_ne.1,
      sequencesEnd_sequence (by decide), sequencesEnd_plain hclose.esc_notMem hmid.getLast?_ne.1, sequencesEnd_color]
    have hshift := sequencesEnd_shift hall.getLast?_ne.1 hall.getLast?_ne.2 [] false txt
    rw [List.append_nil] at hshift
    exact hshift

/-- Every text that is printed is a line, and the plain one has no `CSI`. -/
def Printed.Lines : Printed → Prop
  | .nothing => True
  | .looping => False
  | .backends colored plain =>
    Clean plain.line ∧ (cStr colored.line).getLast? = some newline ∧ (cStr plain.line).getLast? = some newline
  | .stdout txt => Clean txt ∧ (cStr txt).getLast? = some newline

/-- The writes stay inside `m_buf`, the loop ends and both texts for the backends are lines. -/
def WellFormed (background : Bool) (level : Level) (t : Tm) (ms : ℕ) (message : Bytes)
    (m_buf : Vector UInt8 kMaxBufferSize) : Prop :=
  (∀ fuel, (print fuel background true level t ms message ⟨m_buf.toList, true⟩).1.safe = true) ∧
    ∃ fuel, (print fuel background true level t ms message ⟨m_buf.toList, true⟩).2.Lines

/-- What is read of a message that is cut or that ends before its length. -/
def readPart (limit : ℕ) (message : Bytes) : Bytes := cStr (message.take (limit - 1))

theorem starts_nil (m_buf : Vector UInt8 kMaxBufferSize) : Starts [] ⟨m_buf.toList, true⟩ :=
  ⟨m_buf.toList, rfl, by rw [List.length_nil, Nat.zero_add, Vector.length_toList]⟩

theorem print_none {b' : LogBuffer} (h : format level t ms message b = (b', none)) (fuel : ℕ) (background : Bool) :
    print fuel background true level t ms message b = (b', .nothing) := by
  rw [print, h, Bool.not_true, Bool.and_false]
  rfl

theorem print_some {b' : LogBuffer} {offset size : ℕ} (h : format level t ms message b = (b', some (offset, size)))
    (fuel : ℕ) (background : Bool) :
    (print fuel background true level t ms message b).1 = b' ∧
      ((print fuel background true level t ms message b).2.Lines ↔
        ∃ txt, strip fuel (cStr b'.bytes) = some txt ∧ (cStr b'.bytes).getLast? = some newline ∧
          txt.getLast? = some newline) := by
  rw [print, h, Bool.not_true, Bool.and_false]
  show (match strip fuel (cStr b'.bytes) with
    | none => (b', Printed.looping)
    | some txt => _).1 = b' ∧ ((match strip fuel (cStr b'.bytes) with
    | none => (b', Printed.looping)
    | some txt => _).2.Lines ↔ _)
  cases hstrip : strip fuel (cStr b'.bytes) with
  | none => exact ⟨rfl, iff_of_false id fun ⟨_, h, _⟩ => by cases h⟩
  | some txt =>
    have hread : cStr txt = txt := cStr_eq_self fun hzero => ne_zero_of_mem_cStr (mem_of_strip hstrip hzero) rfl
    refine ⟨rfl, ?_⟩
    show Clean txt ∧ (cStr b'.bytes).getLast? = some newline ∧ (cStr txt).getLast? = some newline ↔ _
    rw [hread]
    constructor
    · rintro ⟨-, hcolored, hplain⟩
      exact ⟨txt, rfl, hcolored, hplain⟩
    · rintro ⟨result, hresult, hcolored, hplain⟩
      obtain rfl := Option.some.inj hresult
      exact ⟨clean_of_strip hstrip, hcolored, hplain⟩

/-! ## Which lines are well formed -/

theorem length_tail_lt (level : Level) (t : Tm) (ms : ℕ) (message : Bytes) :
    (cStr (prefixText level t ms ++ tail (limitOf level t ms) message)).length < 2 ^ 64 := by
  have hprefix := length_prefixText level t ms
  have hlimit := limitOf_eq level t ms
  have hstamp := length_stampText level t ms
  have hclear : clear.length = 5 := by decide
  have hread : (cStr (prefixText level t ms ++ tail (limitOf level t ms) message)).length ≤
      (prefixText level t ms ++ tail (limitOf level t ms) message).length := (List.takeWhile_prefix _).length_le
  have htail : (tail (limitOf level t ms) message).length ≤ limitOf level t ms + 5 := by
    rw [tail]
    split
    · rw [List.length_append, hclear]
      omega
    · rw [List.length_take]
      omega
  rw [List.length_append] at hread
  omega

/-- What the two texts are read from: the whole line, or what is read of the message. -/
theorem cStr_line (level : Level) (t : Tm) (ms : ℕ) (message : Bytes) :
    cStr (prefixText level t ms ++ tail (limitOf level t ms) message) =
      if message.length < limitOf level t ms ∧ 0 ∉ message then prefixText level t ms ++ (message ++ clear)
      else prefixText level t ms ++ readPart (limitOf level t ms) message := by
  have hzero : 0 ∉ prefixText level t ms := fun hmem => (prefixText_bytes level t ms 0 hmem).1 rfl
  rw [cStr_append hzero, tail, readPart]
  by_cases hshort : message.length < limitOf level t ms
  · rw [if_pos hshort]
    by_cases hnul : 0 ∉ message
    · rw [if_pos ⟨hshort, hnul⟩, cStr_append hnul, cStr_eq_self (by decide)]
    · rw [if_neg fun h => hnul h.2, List.take_of_length_le (by omega)]
      obtain ⟨u, v, rfl, -⟩ := List.eq_append_cons_of_mem (not_not.mp hnul)
      rw [List.append_assoc, List.cons_append, cStr_zero, cStr_zero]
  · rw [if_neg hshort, if_neg fun h => hshort h.1]

theorem stripsToLine_of_last {txt : Bytes} (hlength : txt.length < 2 ^ 64) :
    (txt.getLast? = some newline ∧ StripsToLine txt) ↔
      txt.getLast? = some newline ∧ sequencesEnd [] false txt = true := by
  refine and_congr_right fun hlast => ?_
  have hclean : Clean [] := by
    show ¬ csi <:+: []
    decide
  exact stripsToLine_append hclean hlength hlast

/-- A line that is whole ends a line, and another one when what is read of the message does. -/
theorem line_ends_iff (level : Level) (t : Tm) (ms : ℕ) (message : Bytes) :
    let txt := if message.length < limitOf level t ms ∧ 0 ∉ message then prefixText level t ms ++ (message ++ clear)
      else prefixText level t ms ++ readPart (limitOf level t ms) message;
    (txt.getLast? = some newline ∧ sequencesEnd [] false txt = true ↔
      message.length < limitOf level t ms ∧ 0 ∉ message ∨
        (readPart (limitOf level t ms) message).getLast? = some newline ∧
          sequencesEnd [] false (readPart (limitOf level t ms) message) = true) := by
  intro txt
  have hbytes := prefixText_bytes level t ms
  by_cases hwhole : message.length < limitOf level t ms ∧ 0 ∉ message
  · have htxt : txt = prefixText level t ms ++ message ++ csi ++ ascii "0" ++ [letterM, newline] := by
      have hclear : clear = csi ++ ascii "0" ++ [letterM, newline] := by decide
      have hif : txt = prefixText level t ms ++ (message ++ clear) := if_pos hwhole
      rw [hif, hclear]
      simp
    refine iff_of_true ⟨?_, ?_⟩ (Or.inl hwhole)
    · rw [htxt]
      exact List.getLast?_append_of_ne_nil _ (by decide)
    · rw [htxt]
      exact sequencesEnd_clear false [] _
  · have htxt : txt = prefixText level t ms ++ readPart (limitOf level t ms) message := if_neg hwhole
    rw [htxt, sequencesEnd_prefixText, or_iff_right hwhole, List.getLast?_append]
    refine and_congr_left fun _ => ?_
    cases (readPart (limitOf level t ms) message).getLast? with
    | none =>
      rw [Option.none_or]
      exact iff_of_false (fun hlast => (hbytes newline (List.mem_of_getLast? hlast)).2 rfl) (by simp)
    | some last => rw [Option.some_or]

/-- All writes are inside the buffer. -/
theorem print_safe (fuel : ℕ) (background : Bool) (level : Level) (t : Tm) (ms : ℕ) (message : Bytes)
    (m_buf : Vector UInt8 kMaxBufferSize) :
    (print fuel background true level t ms message ⟨m_buf.toList, true⟩).1.safe = true := by
  obtain ⟨b', result, hformat, hstart, -, -⟩ := format_cases level t ms message (starts_nil m_buf)
  cases result with
  | none =>
    rw [print_none hformat]
    exact hstart.safe
  | some sizes =>
    rw [(print_some hformat fuel background).1]
    exact hstart.safe

theorem wellFormed_iff (background : Bool) (level : Level) (t : Tm) (ms : ℕ) (message : Bytes)
    (m_buf : Vector UInt8 kMaxBufferSize) :
    WellFormed background level t ms message m_buf ↔
      2 ^ 31 ≤ message.length ∨ message.length < limitOf level t ms ∧ 0 ∉ message ∨
        (readPart (limitOf level t ms) message).getLast? = some newline ∧
          sequencesEnd [] false (readPart (limitOf level t ms) message) = true := by
  have hsafe := fun fuel => print_safe fuel background level t ms message m_buf
  obtain ⟨b', result, hformat, -, hlong, hshort⟩ :=
    format_cases level t ms message (starts_nil m_buf)
  rw [WellFormed, and_iff_right hsafe]
  by_cases hlength : 2 ^ 31 ≤ message.length
  · rw [hlong hlength] at hformat
    refine iff_of_true ⟨0, ?_⟩ (Or.inl hlength)
    rw [print_none hformat]
    trivial
  · obtain ⟨⟨size, hresult⟩, y, hline⟩ := hshort (not_le.mp hlength)
    rw [hresult] at hformat
    have hlines : (∃ fuel, (print fuel background true level t ms message ⟨m_buf.toList, true⟩).2.Lines) ↔
        (cStr b'.bytes).getLast? = some newline ∧ StripsToLine (cStr b'.bytes) := by
      rw [exists_congr fun fuel => (print_some hformat fuel background).2]
      constructor
      · rintro ⟨fuel, txt, hstrip, hcolored, hplain⟩
        exact ⟨hcolored, fuel, txt, hstrip, hplain⟩
      · rintro ⟨hcolored, fuel, txt, hstrip, hplain⟩
        exact ⟨fuel, txt, hstrip, hcolored, hplain⟩
    have htext : cStr b'.bytes = cStr (prefixText level t ms ++ tail (limitOf level t ms) message) := hline.cStr
    have hbound := length_tail_lt level t ms message
    rw [or_iff_right hlength, hlines, htext, stripsToLine_of_last hbound, cStr_line]
    exact line_ends_iff level t ms message

/-- **The lines that are well formed.** -/
theorem line_wellFormed_iff (background : Bool) (level : Level) (t : Tm) (ms : ℕ) (message : Bytes)
    (m_buf : Vector UInt8 kMaxBufferSize) :
    (∀ fuel, (print fuel background true level t ms message ⟨m_buf.toList, true⟩).1.safe = true) ∧
      (WellFormed background level t ms message m_buf ↔
        2 ^ 31 ≤ message.length ∨ message.length < limitOf level t ms ∧ 0 ∉ message ∨
          (readPart (limitOf level t ms) message).getLast? = some newline ∧
            sequencesEnd [] false (readPart (limitOf level t ms) message) = true) :=
  ⟨fun fuel => print_safe fuel background level t ms message m_buf,
    wellFormed_iff background level t ms message m_buf⟩

/-- A message of one line that is cut leaves no newline in the two texts. -/
theorem not_wellFormed_of_cut (background : Bool) (level : Level) (t : Tm) (ms : ℕ) {message : Bytes}
    (m_buf : Vector UInt8 kMaxBufferSize) (hline : newline ∉ message) (hlong : 16352 ≤ message.length)
    (hint : message.length < 2 ^ 31) : ¬ WellFormed background level t ms message m_buf := by
  rw [wellFormed_iff]
  have hlimit := limitOf_eq level t ms
  rintro (h | ⟨h, -⟩ | ⟨hlast, -⟩)
  · omega
  · omega
  · have hread := (List.takeWhile_prefix _).subset (List.mem_of_getLast? hlast)
    exact hline (List.mem_of_mem_take hread)

/-- Without a timestamp a sequence that is cut before its `m` is at the head of the text. -/
theorem print_looping (fuel : ℕ) (background : Bool) (t : Tm) (ms : ℕ) {u : Bytes} (m_buf : Vector UInt8 kMaxBufferSize)
    (hm : letterM ∉ u) (hnul : 0 ∉ u) (hlong : 16350 ≤ u.length) (hint : (csi ++ u).length < 2 ^ 31) :
    (print fuel background true .NONE t ms (csi ++ u) ⟨m_buf.toList, true⟩).2 = .looping := by
  obtain ⟨b', result, hformat, -, -, hshort⟩ :=
    format_cases .NONE t ms (csi ++ u) (starts_nil m_buf)
  obtain ⟨⟨size, rfl⟩, y, hline⟩ := hshort hint
  have hlimit : limitOf .NONE t ms = 16352 := limitOf_eq .NONE t ms
  have hlength : (csi ++ u).length = u.length + 2 := by
    rw [List.length_append, Nat.add_comm]
    rfl
  have htake : (csi ++ u).take (16352 - 1) = csi ++ u.take 16349 := rfl
  have hnul' : 0 ∉ csi ++ u.take 16349 := by
    intro hmem
    obtain h | h := List.mem_append.mp hmem
    · exact absurd h (by decide)
    · exact hnul (List.mem_of_mem_take h)
  have htext : cStr b'.bytes = csi ++ u.take 16349 := by
    rw [hline.cStr, cStr_line, hlimit, if_neg fun h => by omega, readPart, htake, cStr_eq_self hnul']
    rfl
  have hbound : (csi ++ u.take 16349).length < 2 ^ 64 := by
    have hle : (csi ++ u.take 16349).length ≤ (csi ++ u).length := by
      rw [← htake]
      exact List.length_take_le' _ _
    omega
  have hstrip := strip_hangs (fun hmem => hm (List.mem_of_mem_take hmem)) hbound fuel
  rw [print, hformat, Bool.not_true, Bool.and_false]
  show (match strip fuel (cStr b'.bytes) with
    | none => (b', Printed.looping)
    | some txt => _).2 = .looping
  rw [htext, hstrip]

def newYear : Tm := ⟨121, 0, 1, 0, 0, 0, by decide, by decide, by decide, by decide, by decide, by decide⟩

/-- 20000 letters, and 20000 letters behind a `CSI` that has no `m`. -/
theorem long_lines_fail :
    ¬ WellFormed false .INFO newYear 0 (List.replicate 20000 97) (Vector.replicate kMaxBufferSize 0) ∧
      ∀ fuel, (print fuel false true .NONE newYear 0 (csi ++ List.replicate 20000 97)
        ⟨(Vector.replicate kMaxBufferSize 0).toList, true⟩).2 = .looping := by
  have hletters : ∀ b : UInt8, b ≠ 97 → b ∉ List.replicate 20000 97 := fun b hb hmem => hb (List.eq_of_mem_replicate hmem)
  have hlength : (List.replicate 20000 (97 : UInt8)).length = 20000 := List.length_replicate
  constructor
  · exact not_wellFormed_of_cut false .INFO newYear 0 _ (hletters newline (by decide)) (by rw [hlength]; decide)
      (by rw [hlength]; decide)
  · intro fuel
    refine print_looping fuel false newYear 0 _ (hletters letterM (by decide)) (hletters 0 (by decide))
      (by rw [hlength]; decide) ?_
    rw [List.length_append, hlength]
    decide

end NoncesHeatmap.LogPrivate
