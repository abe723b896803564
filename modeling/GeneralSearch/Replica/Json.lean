import GeneralSearch.Replica.Format
import Mathlib.Data.List.Sort
import Mathlib.Data.List.Lex
import Mathlib.Data.Nat.Digits.Lemmas

/-! `ReplicaJson`: the canonical ASCII JSON subset of the wire, its bounded writer and its bounded
recursive-descent parser. -/

namespace GeneralSearch.Replica

open GeneralSearch.Utf8 (JavaString)

/-- A value of the wire.  The entries of a `Map` stand in some order, which is not part of it. -/
inductive Json where
  | null
  | bool (value : Bool)
  | integer (value : Int32)
  | long (value : Int64)
  | string (value : JavaString)
  | map (entries : List (JavaString × Json))
  | list (elements : List Json)

namespace Json

/-! ### Characters -/

def quoteMark : UInt16 := 0x22
def comma : UInt16 := 0x2C
def minus : UInt16 := 0x2D
def colon : UInt16 := 0x3A
def openBracket : UInt16 := 0x5B
def backslash : UInt16 := 0x5C
def closeBracket : UInt16 := 0x5D
def openBrace : UInt16 := 0x7B
def closeBrace : UInt16 := 0x7D

/-- `null`, `true` and `false`. -/
def nullText : JavaString := [0x6E, 0x75, 0x6C, 0x6C]

def trueText : JavaString := [0x74, 0x72, 0x75, 0x65]

def falseText : JavaString := [0x66, 0x61, 0x6C, 0x73, 0x65]

def letter (c : UInt16) : Bool := (0x41 ≤ c && c ≤ 0x5A) || (0x61 ≤ c && c ≤ 0x7A)

def digit (c : UInt16) : Bool := 0x30 ≤ c && c ≤ 0x39

/-- `key`: the keys of an object are identifiers. -/
def key : JavaString → Bool
  | [] => false
  | c :: cs => letter c && cs.all fun c => letter c || digit c || c = 0x5F

/-- The order of a `TreeMap`: the keys are compared by their units. -/
def Before {β : Type} (a b : JavaString × β) : Prop :=
  a.1.map UInt16.toNat ≤ b.1.map UInt16.toNat

instance {β : Type} : DecidableRel (Before (β := β)) := fun _ _ => inferInstanceAs (Decidable (_ ≤ _))

/-- The entries of a map in the order of a `TreeMap`. -/
def sorted {β : Type} (entries : List (JavaString × β)) : List (JavaString × β) :=
  entries.insertionSort Before

/-! ### Writing -/

/-- The `StringBuilder` of `append` and the number of values that are left. -/
structure Output where
  text : JavaString
  remaining : ℕ

abbrev Writer := StateT Output (Except Failure)

def put (maximum : ℤ) (value : JavaString) : Writer Unit := do
  let out ← get
  require ((value.length : ℤ) ≤ maximum - out.text.length) .capacityExceeded
    "JSON exceeds frame bound"
  set (Output.mk (out.text ++ value) out.remaining)

/-- The characters that `quote` copies. -/
def plain (c : UInt16) : Bool := 32 ≤ c && c < 127 && c ≠ quoteMark && c ≠ backslash

/-- `HEX`. -/
def hexDigit (n : ℕ) : UInt16 := if n < 10 then .ofNat (0x30 + n) else .ofNat (0x57 + n)

/-- What `quote` writes for a character that it does not copy. -/
def escape (c : UInt16) : JavaString :=
  if c = quoteMark ∨ c = backslash then [backslash, c]
  else if c = 8 then [backslash, 0x62]
  else if c = 12 then [backslash, 0x66]
  else if c = 10 then [backslash, 0x6E]
  else if c = 13 then [backslash, 0x72]
  else if c = 9 then [backslash, 0x74]
  else [backslash, 0x75, hexDigit (c.toNat / 4096), hexDigit (c.toNat / 256 % 16),
    hexDigit (c.toNat / 16 % 16), hexDigit (c.toNat % 16)]

/-- The loop of `quote`; `run` are the characters to copy that are not written yet. -/
def quoteFrom (maximum : ℤ) (run : JavaString) : JavaString → Writer Unit
  | [] => put maximum run
  | c :: rest =>
    if plain c then quoteFrom maximum (run ++ [c]) rest
    else do
      put maximum run
      put maximum (escape c)
      quoteFrom maximum [] rest

def quote (maximum : ℤ) (value : JavaString) : Writer Unit := do
  put maximum [quoteMark]
  quoteFrom maximum [] value
  put maximum [quoteMark]

/-- The decimal digits of a number. -/
def digits (n : ℕ) : JavaString :=
  if n = 0 then [0x30] else (Nat.digits 10 n).reverse.map fun d => .ofNat (0x30 + d)

/-- `String.valueOf` of an integer. -/
def decimal (v : ℤ) : JavaString := if v < 0 then minus :: digits v.natAbs else digits v.natAbs

/-- The checks at the entry of `append`. -/
def enter (depth : ℕ) : Writer Unit := do
  require (depth ≤ 16) .capacityExceeded "JSON nesting exceeds bound"
  let out ← get
  require (0 < out.remaining) .capacityExceeded "JSON value count exceeds bound"
  set (Output.mk out.text (out.remaining - 1))

/-- The check of a container's size. -/
def room (size : ℕ) (message : String) : Writer Unit := do
  require (size ≤ (← get).remaining) .capacityExceeded message

/-- Writes a value at a depth, with a bound on the text. -/
abbrev Appender := ℤ → ℕ → Writer Unit

/-- What stands before a member or an element; `first` until one is written. -/
def separate (maximum : ℤ) (first : Bool) : Writer Unit :=
  if first then pure () else put maximum [comma]

/-- The members of an object. -/
def writeMembers (maximum : ℤ) (depth : ℕ) : Bool → List (JavaString × Appender) → Writer Unit
  | _, [] => pure ()
  | first, (name, value) :: rest => do
    separate maximum first
    quote maximum name
    put maximum [colon]
    value maximum depth
    writeMembers maximum depth false rest

/-- The elements of a list. -/
def writeElements (maximum : ℤ) (depth : ℕ) : Bool → List Appender → Writer Unit
  | _, [] => pure ()
  | first, value :: rest => do
    separate maximum first
    value maximum depth
    writeElements maximum depth false rest

mutual

def append : Json → Appender
  | null => fun maximum depth => do
    enter depth
    put maximum nullText
  | bool value => fun maximum depth => do
    enter depth
    put maximum (if value then trueText else falseText)
  | integer value => fun maximum depth => do
    enter depth
    put maximum (decimal value.toInt)
  | long value => fun maximum depth => do
    enter depth
    put maximum (decimal value.toInt)
  | string value => fun maximum depth => do
    enter depth
    quote maximum value
  | map entries => fun maximum depth => do
    enter depth
    room entries.length "JSON member count exceeds bound"
    require (∀ entry ∈ entries, key entry.1 = true) .protocolMismatch "invalid JSON object key"
    put maximum [openBrace]
    writeMembers maximum (depth + 1) true (sorted (members entries))
    put maximum [closeBrace]
  | list elements => fun maximum depth => do
    enter depth
    room elements.length "JSON element count exceeds bound"
    put maximum [openBracket]
    writeElements maximum (depth + 1) true (appenders elements)
    put maximum [closeBracket]

def members : List (JavaString × Json) → List (JavaString × Appender)
  | [] => []
  | (name, value) :: rest => (name, append value) :: members rest

def appenders : List Json → List Appender
  | [] => []
  | value :: rest => append value :: appenders rest

end

/-- `getBytes(US_ASCII)`. -/
def asciiBytes (text : JavaString) : Bytes :=
  text.map fun c => if c.toNat < 0x80 then .ofNat c.toNat else 0x3F

def encode (value : Json) (maximum : ℤ) : Except Failure Bytes := do
  let (_, output) ← append value maximum 0 ⟨[], 100000⟩
  return asciiBytes output.text

/-! ### Parsing -/

/-- `Parser`: what is left of the source, and the number of values so far. -/
structure Parser where
  rest : JavaString
  values : ℕ

abbrev Parse := StateT Parser (Except Failure)

def take : Parse UInt16 := do
  let parser ← get
  match parser.rest with
  | [] => throw (.replication .protocolMismatch "incomplete JSON")
  | c :: rest =>
    set (Parser.mk rest parser.values)
    return c

def expect (c : UInt16) : Parse Unit := do
  require ((← take) = c) .protocolMismatch "invalid JSON token"

def consume (c : UInt16) : Parse Bool := do
  let parser ← get
  if parser.rest.head? = some c then
    set (Parser.mk parser.rest.tail parser.values)
    return true
  else return false

def literal (tail : JavaString) : Parse Unit := tail.forM expect

/-- `Character.digit(c, 16)` of an ASCII character. -/
def hexValue (c : UInt16) : Option ℕ :=
  if 0x30 ≤ c ∧ c ≤ 0x39 then some (c.toNat - 0x30)
  else if 0x41 ≤ c ∧ c ≤ 0x46 then some (c.toNat - 0x37)
  else if 0x61 ≤ c ∧ c ≤ 0x66 then some (c.toNat - 0x57)
  else none

/-- The hexadecimal digits of an escape behind a code. -/
def unicode : ℕ → ℕ → Parse UInt16
  | 0, code => return .ofNat code
  | n + 1, code => do
    match hexValue (← take) with
    | some value => unicode n (code * 16 + value)
    | none => throw (.replication .protocolMismatch "invalid Unicode escape")

/-- The character of an escape. -/
def unescape : Parse UInt16 := do
  let c ← take
  if c = quoteMark ∨ c = backslash ∨ c = 0x2F then return c
  else if c = 0x62 then return 8
  else if c = 0x66 then return 12
  else if c = 0x6E then return 10
  else if c = 0x72 then return 13
  else if c = 0x74 then return 9
  else if c = 0x75 then unicode 4 0
  else throw (.replication .protocolMismatch "invalid JSON escape")

/-- The loop of `string`; it takes a character each time, so it does not run out of fuel. -/
def stringFrom : ℕ → JavaString → Parse JavaString
  | 0, _ => throw (.replication .protocolMismatch "incomplete JSON")
  | fuel + 1, result => do
    let c ← take
    if c = quoteMark then return result
    else
      require (32 ≤ c) .protocolMismatch "unescaped JSON control"
      if c = backslash then stringFrom fuel (result ++ [← unescape])
      else stringFrom fuel (result ++ [c])

def scanString : Parse JavaString := do
  stringFrom ((← get).rest.length + 1) []

/-- `Long.parseLong` of an optional minus and digits. -/
def parseLong (text : JavaString) : Option Int64 :=
  let negative := text.head? = some minus
  let body := if negative then text.tail else text
  let magnitude : ℕ := body.foldl (fun n c => n * 10 + (c.toNat - 0x30)) 0
  if body = [] ∨ !body.all digit then none
  else if negative then
    if magnitude ≤ 2 ^ 63 then some (.ofInt (-(magnitude : ℤ))) else none
  else if magnitude < 2 ^ 63 then some (.ofInt magnitude) else none

/-- A number that starts with a character. -/
def number (c : UInt16) : Parse Json := do
  require (c = minus ∨ digit c = true) .protocolMismatch "invalid JSON number"
  let parser ← get
  let text := c :: parser.rest.takeWhile digit
  set (Parser.mk (parser.rest.dropWhile digit) parser.values)
  require (text.length ≤ 20) .protocolMismatch "JSON integer overflow"
  match parseLong text with
  | some value => return long value
  | none => throw (.replication .protocolMismatch "invalid JSON integer")

/-- The loop over the members of an object behind `entries`; each takes a character. -/
def parseMembers (value : Parse Json) : ℕ → List (JavaString × Json) →
    Parse (List (JavaString × Json))
  | 0, _ => throw (.replication .protocolMismatch "incomplete JSON")
  | fuel + 1, entries => do
    expect quoteMark
    let name ← scanString
    require (key name = true ∧ name ∉ entries.map Prod.fst) .protocolMismatch
      "invalid/duplicate JSON key"
    expect colon
    let entries := entries ++ [(name, ← value)]
    if ← consume comma then parseMembers value fuel entries else return entries

/-- The loop over the elements of a list behind `elements`; each takes a character. -/
def parseElements (value : Parse Json) : ℕ → List Json → Parse (List Json)
  | 0, _ => throw (.replication .protocolMismatch "incomplete JSON")
  | fuel + 1, elements => do
    let elements := elements ++ [← value]
    if ← consume comma then parseElements value fuel elements else return elements

/-- A value that starts with a character; `value` reads the values in it. -/
def valueFrom (value : Parse Json) (c : UInt16) : Parse Json := do
  if c = quoteMark then return string (← scanString)
  else if c = openBrace then
    if ← consume closeBrace then return map []
    else
      let entries ← parseMembers value ((← get).rest.length + 1) []
      expect closeBrace
      return map (sorted entries)
  else if c = openBracket then
    if ← consume closeBracket then return list []
    else
      let elements ← parseElements value ((← get).rest.length + 1) []
      expect closeBracket
      return list elements
  else if c = 0x74 then
    literal trueText.tail
    return bool true
  else if c = 0x66 then
    literal falseText.tail
    return bool false
  else if c = 0x6E then
    literal nullText.tail
    return null
  else number c

/-- `value`, with the number of levels that may still be entered. -/
def parseValue : ℕ → Parse Json
  | 0 => throw (.replication .capacityExceeded "JSON nesting exceeds bound")
  | levels + 1 => do
    let parser ← get
    require (parser.values < 100000) .capacityExceeded "JSON value count exceeds bound"
    set (Parser.mk parser.rest (parser.values + 1))
    valueFrom (parseValue levels) (← take)

def decode (bytes : Bytes) (maximum : ℤ) : Except Failure Json := do
  require ((bytes.length : ℤ) ≤ maximum) .capacityExceeded "JSON exceeds frame bound"
  require (∀ b ∈ bytes, b.toNat < 0x80) .protocolMismatch "JSON must be ASCII"
  let source := bytes.map fun b => UInt16.ofNat b.toNat
  let (value, parser) ← parseValue 17 ⟨source, 0⟩
  require (parser.rest = []) .protocolMismatch "trailing JSON bytes"
  let canonical ← encode value maximum
  require (bytes = canonical) .protocolMismatch "noncanonical JSON"
  return value

/-! ### Values as trees -/

/-- Induction over the values, their entries and their elements. -/
theorem induct {P : Json → Prop} (null : P null) (bool : ∀ b, P (bool b))
    (integer : ∀ v, P (integer v)) (long : ∀ v, P (long v)) (string : ∀ s, P (string s))
    (map : ∀ entries, (∀ entry ∈ entries, P entry.2) → P (map entries))
    (list : ∀ elements, (∀ element ∈ elements, P element) → P (list elements)) (value : Json) :
    P value :=
  @Json.rec P (fun entries => ∀ entry ∈ entries, P entry.2)
    (fun elements => ∀ element ∈ elements, P element) (fun entry => P entry.2) null bool integer long string map list (fun _ h => nomatch h)
    (fun _ _ hhead htail _ h => (List.mem_cons.mp h).elim (fun he => he ▸ hhead) (htail _))
    (fun _ h => nomatch h)
    (fun _ _ hhead htail _ h => (List.mem_cons.mp h).elim (fun he => he ▸ hhead) (htail _))
    (fun _ _ h => h) value

mutual

/-- The values that `append` counts. -/
def count : Json → ℕ
  | map entries => 1 + countMembers entries
  | list elements => 1 + countElements elements
  | _ => 1

def countMembers : List (JavaString × Json) → ℕ
  | [] => 0
  | (_, value) :: rest => count value + countMembers rest

def countElements : List Json → ℕ
  | [] => 0
  | value :: rest => count value + countElements rest

end

mutual

/-- At a depth the value is nested within the bound, and its keys are identifiers. -/
def Fits : Json → ℕ → Prop
  | map entries, depth => depth ≤ 16 ∧ FitsMembers entries (depth + 1)
  | list elements, depth => depth ≤ 16 ∧ FitsElements elements (depth + 1)
  | _, depth => depth ≤ 16

def FitsMembers : List (JavaString × Json) → ℕ → Prop
  | [], _ => True
  | (name, value) :: rest, depth => (key name = true ∧ Fits value depth) ∧ FitsMembers rest depth

def FitsElements : List Json → ℕ → Prop
  | [], _ => True
  | value :: rest, depth => Fits value depth ∧ FitsElements rest depth

end

/-- A string as `quote` writes it. -/
def quoted (value : JavaString) : JavaString :=
  quoteMark :: (value.flatMap fun c => if plain c then [c] else escape c) ++ [quoteMark]

/-- Texts with commas between them. -/
def join : Bool → List JavaString → JavaString
  | _, [] => []
  | first, text :: rest => (if first then [] else [comma]) ++ text ++ join false rest

/-- A member of an object. -/
def member (entry : JavaString × JavaString) : JavaString := quoted entry.1 ++ colon :: entry.2

mutual

/-- The text of a value. -/
def render : Json → JavaString
  | null => nullText
  | bool value => if value then trueText else falseText
  | integer value => decimal value.toInt
  | long value => decimal value.toInt
  | string value => quoted value
  | map entries => openBrace :: join true ((sorted (renderMembers entries)).map member) ++ [closeBrace]
  | list elements => openBracket :: join true (renderElements elements) ++ [closeBracket]

def renderMembers : List (JavaString × Json) → List (JavaString × JavaString)
  | [] => []
  | (name, value) :: rest => (name, render value) :: renderMembers rest

def renderElements : List Json → List JavaString
  | [] => []
  | value :: rest => render value :: renderElements rest

end

theorem members_eq (entries : List (JavaString × Json)) :
    members entries = entries.map fun entry => (entry.1, append entry.2) := by
  induction entries with
  | nil => rw [members, List.map_nil]
  | cons entry entries ih => rw [members, ih, List.map_cons]

theorem appenders_eq (elements : List Json) : appenders elements = elements.map append := by
  induction elements with
  | nil => rw [appenders, List.map_nil]
  | cons element elements ih => rw [appenders, ih, List.map_cons]

theorem renderMembers_eq (entries : List (JavaString × Json)) :
    renderMembers entries = entries.map fun entry => (entry.1, render entry.2) := by
  induction entries with
  | nil => rw [renderMembers, List.map_nil]
  | cons entry entries ih => rw [renderMembers, ih, List.map_cons]

theorem renderElements_eq (elements : List Json) :
    renderElements elements = elements.map render := by
  induction elements with
  | nil => rw [renderElements, List.map_nil]
  | cons element elements ih => rw [renderElements, ih, List.map_cons]

theorem countMembers_eq (entries : List (JavaString × Json)) :
    countMembers entries = (entries.map fun entry => count entry.2).sum := by
  induction entries with
  | nil => rw [countMembers, List.map_nil, List.sum_nil]
  | cons entry entries ih => rw [countMembers, ih, List.map_cons, List.sum_cons]

theorem countElements_eq (elements : List Json) :
    countElements elements = (elements.map count).sum := by
  induction elements with
  | nil => rw [countElements, List.map_nil, List.sum_nil]
  | cons element elements ih => rw [countElements, ih, List.map_cons, List.sum_cons]

theorem fitsMembers_iff {entries : List (JavaString × Json)} {depth : ℕ} :
    FitsMembers entries depth ↔ ∀ entry ∈ entries, key entry.1 = true ∧ Fits entry.2 depth := by
  induction entries with
  | nil => exact iff_of_true (by rw [FitsMembers]; trivial) (by simp)
  | cons entry entries ih => rw [FitsMembers, ih, List.forall_mem_cons]

theorem fitsElements_iff {elements : List Json} {depth : ℕ} :
    FitsElements elements depth ↔ ∀ element ∈ elements, Fits element depth := by
  induction elements with
  | nil => exact iff_of_true (by rw [FitsElements]; trivial) (by simp)
  | cons element elements ih => rw [FitsElements, ih, List.forall_mem_cons]

theorem count_pos (value : Json) : 0 < count value := by
  cases value <;> simp only [count] <;> omega

theorem fits_depth {value : Json} {depth : ℕ} (h : Fits value depth) : depth ≤ 16 := by
  cases value <;> simp only [Fits] at h <;> omega

section

variable {β γ : Type}

theorem sorted_perm (entries : List (JavaString × β)) : (sorted entries).Perm entries :=
  List.perm_insertionSort _ _

/-- Sorting looks at the keys alone. -/
theorem sorted_map (f : β → γ) (entries : List (JavaString × β)) :
    sorted (entries.map fun entry => (entry.1, f entry.2)) =
      (sorted entries).map fun entry => (entry.1, f entry.2) :=
  (List.map_insertionSort Before Before (fun entry => (entry.1, f entry.2)) entries
    fun _ _ _ _ => Iff.rfl).symm

end

/-! ### What is written -/

/-- `w` appends `text` and counts `n` values, where `P` holds, the text fits its bound and so many
values are left; elsewhere it fails. -/
def Emits (maximum : ℤ) (w : Writer Unit) (text : JavaString) (n : ℕ) (P : Prop) : Prop :=
  ∀ out out', w out = .ok ((), out') ↔
    P ∧ (out.text.length + text.length : ℤ) ≤ maximum ∧ n ≤ out.remaining ∧
      out' = ⟨out.text ++ text, out.remaining - n⟩

section

variable {maximum : ℤ} {w w' : Writer Unit} {text text' : JavaString} {n n' : ℕ} {P P' : Prop}

theorem writer_bind_eq_ok {α β : Type} {x : Writer α} {f : α → Writer β} {out : Output}
    {r : β × Output} : (x >>= f) out = .ok r ↔ ∃ a mid, x out = .ok (a, mid) ∧ f a mid = .ok r := by
  show (x out >>= fun p => f p.1 p.2) = .ok r ↔ _
  rw [Lib.bind_eq_ok]
  exact ⟨fun ⟨p, hx, hf⟩ => ⟨p.1, p.2, hx, hf⟩, fun ⟨a, mid, hx, hf⟩ => ⟨(a, mid), hx, hf⟩⟩

theorem writer_require_eq_ok {condition : Prop} [Decidable condition] {reason : Reason}
    {message : String} {out : Output} {r : Unit × Output} :
    (require condition reason message : Writer Unit) out = .ok r ↔ condition ∧ r = ((), out) := by
  unfold require
  by_cases h : condition
  · rw [if_pos h]
    exact ⟨fun heq => ⟨h, (Except.ok.inj heq).symm⟩, fun heq => heq.2 ▸ rfl⟩
  · rw [if_neg h]
    exact ⟨nofun, fun heq => absurd heq.1 h⟩

theorem Emits.congr (h : Emits maximum w text n P) (ht : text = text') (hn : n = n')
    (hP : P ↔ P') : Emits maximum w text' n' P' := by
  subst ht hn
  intro out out'
  rw [h, hP]

/-- One after the other. -/
theorem Emits.andThen (h : Emits maximum w text n P) (h' : Emits maximum w' text' n' P') :
    Emits maximum (w >>= fun _ => w') (text ++ text') (n + n') (P ∧ P') := by
  intro out out'
  rw [writer_bind_eq_ok]
  constructor
  · rintro ⟨_, mid, hw, hw'⟩
    obtain ⟨hP, hlength, hcount, rfl⟩ := (h _ _).mp hw
    obtain ⟨hP', hlength', hcount', rfl⟩ := (h' _ _).mp hw'
    simp only [List.length_append] at hlength' hcount' ⊢
    refine ⟨⟨hP, hP'⟩, by omega, by omega, ?_⟩
    rw [List.append_assoc, Nat.sub_sub]
  · rintro ⟨⟨hP, hP'⟩, hlength, hcount, rfl⟩
    simp only [List.length_append] at hlength
    refine ⟨(), _, (h _ _).mpr ⟨hP, by omega, by omega, rfl⟩,
      (h' _ _).mpr ⟨hP', ?_, ?_, ?_⟩⟩
    · simp only [List.length_append]
      omega
    · show n' ≤ out.remaining - n
      omega
    · simp only [List.append_assoc, Nat.sub_sub]

theorem put_emits (value : JavaString) : Emits maximum (put maximum value) value 0 True := by
  intro out out'
  show (do
    require ((value.length : ℤ) ≤ maximum - out.text.length) .capacityExceeded
      "JSON exceeds frame bound"
    set (Output.mk (out.text ++ value) out.remaining) : Writer Unit) out = _ ↔ _
  simp only [writer_bind_eq_ok, writer_require_eq_ok]
  constructor
  · rintro ⟨_, _, ⟨hfits, hmid⟩, hset⟩
    cases hmid
    cases hset
    exact ⟨trivial, by omega, Nat.zero_le _, rfl⟩
  · rintro ⟨-, hfits, -, rfl⟩
    exact ⟨(), out, ⟨by omega, rfl⟩, rfl⟩

/-- The checks at the entry of a value count it. -/
theorem Emits.enter (h : Emits maximum w text n P) (depth : ℕ) :
    Emits maximum (enter depth >>= fun _ => w) text (1 + n) (depth ≤ 16 ∧ P) := by
  have henter : ∀ out out', Json.enter depth out = .ok ((), out') ↔
      depth ≤ 16 ∧ 0 < out.remaining ∧ out' = ⟨out.text, out.remaining - 1⟩ := by
    intro out out'
    show (do
      require (depth ≤ 16) .capacityExceeded "JSON nesting exceeds bound"
      let out ← get
      require (0 < out.remaining) .capacityExceeded "JSON value count exceeds bound"
      set (Output.mk out.text (out.remaining - 1)) : Writer Unit) out = _ ↔ _
    simp only [writer_bind_eq_ok, writer_require_eq_ok]
    constructor
    · rintro ⟨_, _, ⟨hdepth, hmid⟩, _, _, hget, _, _, ⟨hpos, hmid'⟩, hset⟩
      cases hmid
      cases hget
      cases hmid'
      cases hset
      exact ⟨hdepth, hpos, rfl⟩
    · rintro ⟨hdepth, hpos, rfl⟩
      exact ⟨(), out, ⟨hdepth, rfl⟩, out, out, rfl, (), out, ⟨hpos, rfl⟩, rfl⟩
  intro out out'
  rw [writer_bind_eq_ok]
  constructor
  · rintro ⟨_, mid, hw, hw'⟩
    obtain ⟨hdepth, hpos, rfl⟩ := (henter _ _).mp hw
    obtain ⟨hP, hlength, hcount, rfl⟩ := (h _ _).mp hw'
    refine ⟨⟨hdepth, hP⟩, hlength, ?_, ?_⟩
    · simp only at hcount
      omega
    · rw [Nat.sub_sub]
  · rintro ⟨⟨hdepth, hP⟩, hlength, hcount, rfl⟩
    refine ⟨(), _, (henter _ _).mpr ⟨hdepth, by omega, rfl⟩, (h _ _).mpr ⟨hP, hlength, ?_, ?_⟩⟩
    · show n ≤ out.remaining - 1
      omega
    · simp only [Nat.sub_sub]

/-- The check of a container's size repeats what is counted. -/
theorem Emits.room {size : ℕ} {message : String} (h : Emits maximum w text n P) (hsize : size ≤ n) :
    Emits maximum (room size message >>= fun _ => w) text n P := by
  have hroom : ∀ out out', Json.room size message out = .ok ((), out') ↔
      size ≤ out.remaining ∧ out' = out := by
    intro out out'
    show (do
      let out ← get
      require (size ≤ out.remaining) .capacityExceeded message : Writer Unit) out = _ ↔ _
    simp only [writer_bind_eq_ok, writer_require_eq_ok]
    constructor
    · rintro ⟨_, _, hget, hle, hmid⟩
      cases hget
      cases hmid
      exact ⟨hle, rfl⟩
    · rintro ⟨hle, rfl⟩
      exact ⟨_, _, rfl, hle, rfl⟩
  intro out out'
  rw [writer_bind_eq_ok]
  constructor
  · rintro ⟨_, mid, hw, hw'⟩
    obtain ⟨-, rfl⟩ := (hroom _ _).mp hw
    exact (h _ _).mp hw'
  · rintro hw
    exact ⟨(), out, (hroom _ _).mpr ⟨by omega, rfl⟩, (h _ _).mpr hw⟩

theorem Emits.require {condition : Prop} [Decidable condition] {reason : Reason} {message : String}
    (h : Emits maximum w text n P) :
    Emits maximum ((Replica.require condition reason message : Writer Unit) >>= fun _ => w) text n
      (condition ∧ P) := by
  intro out out'
  simp only [writer_bind_eq_ok, writer_require_eq_ok]
  constructor
  · rintro ⟨_, _, ⟨hc, hmid⟩, hw⟩
    cases hmid
    obtain ⟨hP, hrest⟩ := (h _ _).mp hw
    exact ⟨⟨hc, hP⟩, hrest⟩
  · rintro ⟨⟨hc, hP⟩, hrest⟩
    exact ⟨(), out, ⟨hc, rfl⟩, (h _ _).mpr ⟨hP, hrest⟩⟩

theorem quoteFrom_emits (run value : JavaString) : Emits maximum (quoteFrom maximum run value)
    (run ++ value.flatMap fun c => if plain c then [c] else escape c) 0 True := by
  induction value generalizing run with
  | nil =>
    rw [quoteFrom, List.flatMap_nil, List.append_nil]
    exact put_emits run
  | cons c rest ih =>
    rw [quoteFrom, List.flatMap_cons]
    by_cases hc : plain c = true
    · rw [if_pos hc, if_pos hc, ← List.append_assoc]
      exact ih (run ++ [c])
    · rw [if_neg hc, if_neg hc]
      exact ((put_emits run).andThen ((put_emits (escape c)).andThen (ih []))).congr
        (by simp) rfl (by simp)

theorem quote_emits (value : JavaString) :
    Emits maximum (quote maximum value) (quoted value) 0 True :=
  ((put_emits [quoteMark]).andThen
    ((quoteFrom_emits [] value).andThen (put_emits [quoteMark]))).congr (by simp [quoted]) rfl
    (by simp)

/-- What is written before a member or an element. -/
theorem Emits.separate (h : Emits maximum w text n P) (first : Bool) :
    Emits maximum (separate maximum first >>= fun _ => w)
      ((if first then [] else [comma]) ++ text) n P := by
  cases first with
  | true => exact h
  | false => exact ((put_emits [comma]).andThen h).congr rfl (Nat.zero_add n) (by rw [true_and])

/-- The members of an object, one after the other. -/
theorem Emits.members {entries : List (JavaString × Json)} {depth : ℕ}
    (hentries : ∀ entry ∈ entries, Emits maximum (append entry.2 maximum depth) (render entry.2)
      (count entry.2) (Fits entry.2 depth))
    (h : Emits maximum w text n P) (first : Bool) :
    Emits maximum (writeMembers maximum depth first
        (entries.map fun entry => (entry.1, append entry.2)) >>= fun _ => w)
      (join first (entries.map fun entry => member (entry.1, render entry.2)) ++ text)
      ((entries.map fun entry => count entry.2).sum + n)
      ((∀ entry ∈ entries, Fits entry.2 depth) ∧ P) := by
  induction entries generalizing first with
  | nil => exact h.congr rfl (Nat.zero_add n).symm (by simp)
  | cons entry entries ih =>
    obtain ⟨hentry, hrest⟩ := List.forall_mem_cons.mp hentries
    simp only [List.map_cons, writeMembers, bind_assoc]
    refine ((((quote_emits entry.1).andThen ((put_emits [colon]).andThen
      (hentry.andThen (ih hrest false)))).separate first).congr ?_ ?_ ?_)
    · simp [join, member]
    · simp only [List.sum_cons]
      omega
    · rw [List.forall_mem_cons, true_and, true_and, and_assoc]

/-- The elements of a list, one after the other. -/
theorem Emits.elements {elements : List Json} {depth : ℕ}
    (helements : ∀ element ∈ elements, Emits maximum (append element maximum depth)
      (render element) (count element) (Fits element depth))
    (h : Emits maximum w text n P) (first : Bool) :
    Emits maximum (writeElements maximum depth first (elements.map append) >>= fun _ => w)
      (join first (elements.map render) ++ text) ((elements.map count).sum + n)
      ((∀ element ∈ elements, Fits element depth) ∧ P) := by
  induction elements generalizing first with
  | nil => exact h.congr rfl (Nat.zero_add n).symm (by simp)
  | cons element elements ih =>
    obtain ⟨helement, hrest⟩ := List.forall_mem_cons.mp helements
    simp only [List.map_cons, writeElements, bind_assoc]
    refine ((helement.andThen (ih hrest false)).separate first).congr ?_ ?_ ?_
    · simp [join]
    · simp only [List.sum_cons]
      omega
    · rw [List.forall_mem_cons, and_assoc]

end

theorem sum_count_ge {α : Type} (f : α → ℕ) {elements : List α} (h : ∀ element ∈ elements, 0 < f element) :
    elements.length ≤ (elements.map f).sum := by
  induction elements with
  | nil => exact Nat.zero_le _
  | cons element elements ih =>
    obtain ⟨helement, hrest⟩ := List.forall_mem_cons.mp h
    have := ih hrest
    rw [List.map_cons, List.sum_cons, List.length_cons]
    omega

/-- `append` writes the text of a value. -/
theorem append_emits (maximum : ℤ) (value : Json) : ∀ depth : ℕ,
    Emits maximum (append value maximum depth) (render value) (count value) (Fits value depth) := by
  induction value using induct with
  | null => exact fun depth => ((put_emits nullText).enter depth).congr rfl rfl (by simp [Fits])
  | bool b =>
    exact fun depth => ((put_emits (if b then trueText else falseText)).enter depth).congr
      (by rw [render]) rfl (by simp [Fits])
  | integer v =>
    exact fun depth => ((put_emits (decimal v.toInt)).enter depth).congr (by rw [render]) rfl (by simp [Fits])
  | long v =>
    exact fun depth => ((put_emits (decimal v.toInt)).enter depth).congr (by rw [render]) rfl (by simp [Fits])
  | string s =>
    exact fun depth => ((quote_emits s).enter depth).congr (by rw [render]) rfl (by simp [Fits])
  | map entries ih =>
    intro depth
    have hperm := sorted_perm entries
    have hsorted := fun entry he => ih entry (hperm.mem_iff.mp he) (depth + 1)
    have hsum := (hperm.map fun entry => count entry.2).sum_eq
    have hsize : entries.length ≤ (entries.map fun entry => count entry.2).sum :=
      sum_count_ge _ fun entry _ => count_pos entry.2
    rw [append, members_eq, sorted_map]
    refine ((((put_emits [openBrace]).andThen
      (Emits.members hsorted (put_emits [closeBrace]) true)).require.room ?_).enter depth).congr
        ?_ ?_ ?_
    · omega
    · rw [render, renderMembers_eq, sorted_map, List.map_map, Function.comp_def]
      simp
    · rw [count, countMembers_eq, hsum]
      omega
    · rw [Fits, fitsMembers_iff]
      simp only [hperm.mem_iff, true_and, and_true, forall₂_and]
  | list elements ih =>
    intro depth
    have hsize : elements.length ≤ (elements.map count).sum :=
      sum_count_ge _ fun element _ => count_pos element
    rw [append, appenders_eq]
    refine ((((put_emits [openBracket]).andThen (Emits.elements
      (fun element he => ih element he (depth + 1)) (put_emits [closeBracket]) true)).room
        ?_).enter depth).congr ?_ ?_ ?_
    · omega
    · rw [render, renderElements_eq]
      simp
    · rw [count, countElements_eq]
      omega
    · rw [Fits, fitsElements_iff]
      simp

/-- What `encode` accepts, and what it writes then. -/
theorem encode_eq_ok {value : Json} {maximum : ℤ} {bytes : Bytes} :
    encode value maximum = .ok bytes ↔ Fits value 0 ∧ ((render value).length : ℤ) ≤ maximum ∧
      count value ≤ 100000 ∧ bytes = asciiBytes (render value) := by
  show (do
    let (_, output) ← append value maximum 0 ⟨[], 100000⟩
    return asciiBytes output.text) = Except.ok bytes ↔ _
  rw [Lib.bind_eq_ok]
  have hemits := append_emits maximum value 0 ⟨[], 100000⟩
  constructor
  · rintro ⟨⟨_, output⟩, happend, hbytes⟩
    obtain ⟨hfits, hlength, hcount, rfl⟩ := (hemits output).mp happend
    refine ⟨hfits, ?_, hcount, ?_⟩
    · simpa using hlength
    · cases hbytes
      rw [List.nil_append]
  · rintro ⟨hfits, hlength, hcount, rfl⟩
    refine ⟨((), _), (hemits _).mpr ⟨hfits, ?_, hcount, rfl⟩, ?_⟩
    · simpa using hlength
    · rw [List.nil_append]
      rfl

end Json

end GeneralSearch.Replica
