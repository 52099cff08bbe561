import Mathlib.Tactic.NormNum
import Mathlib.Data.List.Basic

/-! # JSON documents and the typed getters of `Json`

`Value` is a rapidjson value as the reader builds it: an integer literal that fits 64 bits keeps
its value, every other number is a double and answers `false` to all integer tests. An object is
the list of its members in document order, and `findMember` returns the first one of a name.

The getters of `base/io/json/Json.cpp` share one shape, `getWith`: the default unless the object
has the member and the member passes the type test. -/

namespace NoncesHeatmap
set_option autoImplicit false

/-- A `uint32_t` expression: the value modulo `2^32`. -/
def u32 (n : ℕ) : ℕ := n % 2 ^ 32

theorem u32_of_lt {n : ℕ} (h : n < 2 ^ 32) : u32 n = n := Nat.mod_eq_of_lt h

/-- A `size_t` expression. -/
def u64 (n : ℕ) : ℕ := n % 2 ^ 64

theorem u64_of_lt {n : ℕ} (h : n < 2 ^ 64) : u64 n = n := Nat.mod_eq_of_lt h

/-- A difference that does not go below 0, as the model writes it. -/
theorem u64_add_two_pow {n : ℕ} (h : n < 2 ^ 64) : u64 (n + 2 ^ 64) = n := by
  rw [u64, Nat.add_mod_right, Nat.mod_eq_of_lt h]

inductive Value where
  | null
  | bool (b : Bool)
  | int (n : ℤ)
  | double (literal : String)
  | string (s : String)
  | array (elements : List Value)
  | object (members : List (String × Value))

namespace Value

def isObject : Value → Bool
  | object _ => true
  | _ => false

def isArray : Value → Bool
  | array _ => true
  | _ => false

def getArray : Value → List Value
  | array elements => elements
  | _ => []

def findMember (v : Value) (name : String) : Option Value :=
  match v with
  | object members => members.lookup name
  | _ => none

/-- `GetUint()` on a value that `IsUint()`: an integer of 32 unsigned bits. -/
def asUint : Value → Option ℕ
  | int n => if 0 ≤ n ∧ n < 2 ^ 32 then some n.toNat else none
  | _ => none

/-- `GetUint64()` on a value that `IsUint64()`. -/
def asUint64 : Value → Option ℕ
  | int n => if 0 ≤ n ∧ n < 2 ^ 64 then some n.toNat else none
  | _ => none

/-- `GetInt()` on a value that `IsInt()`. -/
def asInt : Value → Option ℤ
  | int n => if -2 ^ 31 ≤ n ∧ n < 2 ^ 31 then some n else none
  | _ => none

def asBool : Value → Option Bool
  | bool b => some b
  | _ => none

def asObject (v : Value) : Option Value := if v.isObject then some v else none

def asArray (v : Value) : Option Value := if v.isArray then some v else none

def asString : Value → Option String
  | string s => some s
  | _ => none

theorem asUint_lt {v : Value} {n : ℕ} (h : v.asUint = some n) : n < 2 ^ 32 := by
  cases v with
  | int i =>
    simp only [asUint] at h
    split at h
    · next hi =>
      rw [Option.some.injEq] at h
      omega
    · cases h
  | _ => cases h

theorem asUint_nat {n : ℕ} (h : n < 2 ^ 32) : asUint (int n) = some n := by
  have hn : (n : ℤ) < 2 ^ 32 := by exact_mod_cast h
  rw [asUint, if_pos ⟨Int.natCast_nonneg n, hn⟩, Int.toNat_natCast]

theorem asInt_bounds {v : Value} {n : ℤ} (h : v.asInt = some n) : -2 ^ 31 ≤ n ∧ n < 2 ^ 31 := by
  cases v with
  | int i =>
    simp only [asInt] at h
    split at h
    · next hi =>
      obtain rfl : i = n := Option.some.inj h
      exact hi
    · cases h
  | _ => cases h

theorem asInt_int {n : ℤ} (h : -2 ^ 31 ≤ n ∧ n < 2 ^ 31) : asInt (int n) = some n := if_pos h

theorem asUint64_nat {n : ℕ} (h : n < 2 ^ 64) : asUint64 (int n) = some n := by
  have hn : (n : ℤ) < 2 ^ 64 := by exact_mod_cast h
  rw [asUint64, if_pos ⟨Int.natCast_nonneg n, hn⟩, Int.toNat_natCast]

end Value

namespace Json

def isEmpty : Value → Bool
  | .object [] => true
  | .object _ => false
  | _ => true

/-- The getters of `Json`: the default value for anything that is not a non-empty object, for a
missing member and for a member of another type. -/
def getWith {α : Type} (read : Value → Option α) (obj : Value) (key : String) (defaultValue : α) : α :=
  if isEmpty obj then defaultValue
  else match obj.findMember key with
    | some v => (read v).getD defaultValue
    | none => defaultValue

def getUint (obj : Value) (key : String) (defaultValue : ℕ) : ℕ :=
  getWith Value.asUint obj key defaultValue

def getUint64 (obj : Value) (key : String) (defaultValue : ℕ) : ℕ :=
  getWith Value.asUint64 obj key defaultValue

def getInt (obj : Value) (key : String) (defaultValue : ℤ) : ℤ :=
  getWith Value.asInt obj key defaultValue

def getBool (obj : Value) (key : String) (defaultValue : Bool) : Bool :=
  getWith Value.asBool obj key defaultValue

def getValue (obj : Value) (key : String) : Value := getWith some obj key .null

def getObject (obj : Value) (key : String) : Value := getWith Value.asObject obj key .null

def getArray (obj : Value) (key : String) : Value := getWith Value.asArray obj key .null

def getString (obj : Value) (key : String) : Option String :=
  getWith (fun v => v.asString.map some) obj key none

/-- A getter returns its default or a value that passed its type test. -/
theorem getWith_cases {α : Type} {P : α → Prop} {read : Value → Option α} {obj : Value} {key : String}
    {defaultValue : α} (hdefault : P defaultValue) (hread : ∀ v a, read v = some a → P a) :
    P (getWith read obj key defaultValue) := by
  unfold getWith
  split
  · exact hdefault
  · split
    · next v _ =>
      cases hr : read v with
      | none => exact hdefault
      | some a => exact hread v a hr
    · exact hdefault

theorem getWith_head {α : Type} (read : Value → Option α) (key : String) (v : Value)
    (members : List (String × Value)) (defaultValue : α) :
    getWith read (.object ((key, v) :: members)) key defaultValue = (read v).getD defaultValue := by
  simp [getWith, isEmpty, Value.findMember]

theorem getWith_tail {α : Type} (read : Value → Option α) {key name : String} (hne : key ≠ name)
    (v : Value) (members : List (String × Value)) (defaultValue : α) :
    getWith read (.object ((name, v) :: members)) key defaultValue =
      getWith read (.object members) key defaultValue := by
  have hbeq : (key == name) = false := by simpa using hne
  cases members <;> simp [getWith, isEmpty, Value.findMember, List.lookup_cons, hbeq]

theorem getUint_lt {obj : Value} {key : String} {defaultValue : ℕ} (h : defaultValue < 2 ^ 32) :
    getUint obj key defaultValue < 2 ^ 32 :=
  getWith_cases (P := fun n => n < 2 ^ 32) h fun _ _ => Value.asUint_lt

theorem getInt_bounds {obj : Value} {key : String} {defaultValue : ℤ}
    (h : -2 ^ 31 ≤ defaultValue ∧ defaultValue < 2 ^ 31) :
    -2 ^ 31 ≤ getInt obj key defaultValue ∧ getInt obj key defaultValue < 2 ^ 31 :=
  getWith_cases (P := fun n => -2 ^ 31 ≤ n ∧ n < 2 ^ 31) h fun _ _ => Value.asInt_bounds

end Json
end NoncesHeatmap
