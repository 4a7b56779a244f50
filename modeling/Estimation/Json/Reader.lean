import Estimation.Json

/-!
Reading JSON text: first its words, then the value that they spell. The second step passes over the
words once and keeps the arrays and objects that are still open.
-/

namespace Estimation.Json

inductive Word where
  | openArray
  | closeArray
  | openObject
  | closeObject
  | comma
  | colon
  | scalar (value : Json)

/-! ### Words -/

def isBlank (c : Char) : Bool := c == ' ' || c == '\t' || c == '\n' || c == '\r'

def hexValue? (c : Char) : Option Nat :=
  if c.isDigit then some (c.toNat - '0'.toNat)
  else if 'a' ≤ c ∧ c ≤ 'f' then some (c.toNat - 'a'.toNat + 10)
  else if 'A' ≤ c ∧ c ≤ 'F' then some (c.toNat - 'A'.toNat + 10)
  else none

/-- The number that four hexadecimal digits stand for. -/
def unit? (a b c d : Char) : Option Nat := do
  return (((← hexValue? a) * 16 + (← hexValue? b)) * 16 + (← hexValue? c)) * 16 + (← hexValue? d)

def escape? : Char → Option Char
  | '"' => some '"'
  | '\\' => some '\\'
  | '/' => some '/'
  | 'b' => some '\x08'
  | 'f' => some '\x0c'
  | 'n' => some '\n'
  | 'r' => some '\r'
  | 't' => some '\t'
  | _ => none

/-- The character of a pair of units, high before low. -/
def ofPair? (high low : Nat) : Option Char :=
  if 0xD800 ≤ high ∧ high < 0xDC00 ∧ 0xDC00 ≤ low ∧ low < 0xE000 then
    some (.ofNat (0x10000 + (high - 0xD800) * 0x400 + (low - 0xDC00)))
  else none

def ofUnit? (n : Nat) : Option Char :=
  if n < 0xD800 ∨ 0xE000 ≤ n then some (.ofNat n) else none

/-- Adds a character to a content, last character first. There is no content that holds what is no
character. -/
def addChar (content : Option (List Char)) (c : Option Char) : Option (List Char) :=
  return (← c) :: (← content)

/-- The content of a string behind its opening quote, and what follows the closing quote. -/
def stringFrom (content : Option (List Char)) :
    List Char → Option (Option (List Char) × List Char)
  | [] => none
  | '"' :: r => some (content, r)
  | '\\' :: 'u' :: a :: b :: c :: d :: '\\' :: 'u' :: e :: f :: g :: h :: r => do
    let first ← unit? a b c d
    match ofPair? first (← unit? e f g h) with
    | some pair => stringFrom (addChar content pair) r
    | none => stringFrom (addChar content (ofUnit? first)) ('\\' :: 'u' :: e :: f :: g :: h :: r)
  | '\\' :: 'u' :: a :: b :: c :: d :: r => do
    stringFrom (addChar content (ofUnit? (← unit? a b c d))) r
  | '\\' :: c :: r => do stringFrom (addChar content (some (← escape? c))) r
  | c :: r => if c.toNat < 32 then none else stringFrom (addChar content c) r

/-- The value of a string with a content. -/
def ofContent : Option (List Char) → Json
  | some content => .string (String.ofList content.reverse)
  | none => .unreadable

def isNumberPart (c : Char) : Bool :=
  c.isDigit || c == '+' || c == '-' || c == '.' || c == 'e' || c == 'E'

/-- An exponent, or nothing. -/
def isExponent : List Char → Bool
  | [] => true
  | mark :: r =>
    let digits := match r with
      | '+' :: r => r
      | '-' :: r => r
      | r => r
    (mark == 'e' || mark == 'E') && !digits.isEmpty && digits.all Char.isDigit

/-- Whole digits without a leading zero, then a fraction and an exponent where there are any. -/
def isMagnitude (cs : List Char) : Bool :=
  let whole := cs.takeWhile Char.isDigit
  let rest := cs.dropWhile Char.isDigit
  let fits := !whole.isEmpty && (whole.head? != some '0' || whole.length == 1)
  fits && match rest with
    | '.' :: r => !(r.takeWhile Char.isDigit).isEmpty && isExponent (r.dropWhile Char.isDigit)
    | r => isExponent r

def isNumber : List Char → Bool
  | '-' :: r => isMagnitude r
  | r => isMagnitude r

/-- What begins with `c`, and the rest of the text. -/
def word? (c : Char) (r : List Char) : Option (Word × List Char) :=
  match c with
  | '[' => some (.openArray, r)
  | ']' => some (.closeArray, r)
  | '{' => some (.openObject, r)
  | '}' => some (.closeObject, r)
  | ',' => some (.comma, r)
  | ':' => some (.colon, r)
  | '"' => (stringFrom (some []) r).map fun (content, r) => (.scalar (ofContent content), r)
  | c =>
    if isNumberPart c then
      let written := c :: r.takeWhile isNumberPart
      if isNumber written then
        some (.scalar (.number (String.ofList written)), r.dropWhile isNumberPart)
      else none
    else
      match String.ofList (c :: r.takeWhile Char.isAlpha) with
      | "null" => some (.scalar .null, r.dropWhile Char.isAlpha)
      | "true" => some (.scalar (.bool true), r.dropWhile Char.isAlpha)
      | "false" => some (.scalar (.bool false), r.dropWhile Char.isAlpha)
      | _ => none

theorem length_stringFrom {content content' : Option (List Char)} {cs r : List Char}
    (h : stringFrom content cs = some (content', r)) : r.length < cs.length := by
  fun_induction stringFrom content cs with
  | case1 => simp at h
  | case2 content r' =>
    simp only [Option.some.injEq, Prod.mk.injEq] at h
    simp [h.2]
  | case3 content a b c d e f g k r' ih1 ih2 =>
    simp only [Option.bind_eq_bind, Option.bind_eq_some_iff] at h
    obtain ⟨_, _, _, _, h⟩ := h
    split at h
    · have := ih1 _ h
      simp only [List.length_cons]
      omega
    · have := ih2 _ h
      simp only [List.length_cons] at *
      omega
  | case4 content a b c d r' _ ih =>
    simp only [Option.bind_eq_bind, Option.bind_eq_some_iff] at h
    obtain ⟨_, _, h⟩ := h
    have := ih _ h
    simp only [List.length_cons]
    omega
  | case5 content c r' _ _ ih =>
    simp only [Option.bind_eq_bind, Option.bind_eq_some_iff] at h
    obtain ⟨_, _, h⟩ := h
    have := ih _ h
    simp only [List.length_cons]
    omega
  | case6 => simp at h
  | case7 content c r' _ _ _ _ _ ih =>
    have := ih h
    simp only [List.length_cons]
    omega

theorem length_dropWhile_le (p : Char → Bool) (r : List Char) :
    (r.dropWhile p).length ≤ r.length := (List.dropWhile_sublist p).length_le

theorem length_word {c : Char} {r r' : List Char} {w : Word} (h : word? c r = some (w, r')) :
    r'.length < (c :: r).length := by
  have digits := length_dropWhile_le isNumberPart r
  have letters := length_dropWhile_le Char.isAlpha r
  suffices r'.length ≤ r.length by
    simp only [List.length_cons]
    omega
  unfold word? at h
  split at h
  case h_7 =>
    obtain ⟨⟨content, rest⟩, found, same⟩ := Option.map_eq_some_iff.1 h
    have := length_stringFrom found
    simp only [Prod.mk.injEq] at same
    rw [← same.2]
    omega
  case h_8 => grind
  all_goals simp_all

/-- The words of a text. -/
def words? (cs : List Char) : Option (List Word) :=
  match cs with
  | [] => some []
  | c :: r =>
    if isBlank c then words? r
    else
      match h : word? c r with
      | none => none
      | some (w, rest) =>
        have : rest.length < (c :: r).length := length_word h
        (words? rest).map (w :: ·)
  termination_by cs.length
  decreasing_by
    · exact Nat.lt_succ_self _
    · exact this

/-! ### Values -/

/-- An array or object that is still open, its items last first. The members of an object are gone
once it has a key that is no text. -/
inductive Frame where
  | array (items : List Json)
  | object (members : Option (List (String × Json)))
  | member (members : Option (List (String × Json))) (key : String)

/-- What may come next. -/
inductive Awaiting where
  | value
  | valueOrClose
  | keyOrClose
  | key
  | colon
  | commaOrClose
  | finished (value : Json)

structure Open where
  frames : List Frame
  awaiting : Awaiting

namespace Open

/-- Puts a finished value where it belongs. -/
def put (value : Json) : List Frame → Option Open
  | [] => some ⟨[], .finished value⟩
  | .array items :: rest => some ⟨.array (value :: items) :: rest, .commaOrClose⟩
  | .member members key :: rest =>
    some ⟨.object (members.map ((key, value) :: ·)) :: rest, .commaOrClose⟩
  | .object _ :: _ => none

/-- Reads the beginning of a value. -/
def begin (frames : List Frame) : Word → Option Open
  | .openArray => some ⟨.array [] :: frames, .valueOrClose⟩
  | .openObject => some ⟨.object (some []) :: frames, .keyOrClose⟩
  | .scalar value => put value frames
  | _ => none

def close : List Frame → Word → Option Open
  | .array items :: rest, .closeArray => put (.array items.reverse) rest
  | .object (some members) :: rest, .closeObject => put (.object members.reverse) rest
  | .object none :: rest, .closeObject => put .unreadable rest
  | _, _ => none

def key : List Frame → Word → Option Open
  | .object members :: rest, .scalar (.string key) => some ⟨.member members key :: rest, .colon⟩
  | .object _ :: rest, .scalar .unreadable => some ⟨.member none "" :: rest, .colon⟩
  | _, _ => none

def read (o : Open) (w : Word) : Option Open :=
  match o.awaiting, w with
  | .value, w => begin o.frames w
  | .valueOrClose, .closeArray => close o.frames .closeArray
  | .valueOrClose, w => begin o.frames w
  | .keyOrClose, .closeObject => close o.frames .closeObject
  | .keyOrClose, w => key o.frames w
  | .key, w => key o.frames w
  | .colon, .colon => some ⟨o.frames, .value⟩
  | .commaOrClose, .comma =>
    match o.frames with
    | .object _ :: _ => some ⟨o.frames, .key⟩
    | _ => some ⟨o.frames, .value⟩
  | .commaOrClose, w => close o.frames w
  | _, _ => none

end Open

def ofWords? (words : List Word) : Option Json :=
  match words.foldlM Open.read ⟨[], .value⟩ with
  | some ⟨_, .finished value⟩ => some value
  | _ => none

/-- The value that a text spells, if it spells one. -/
def ofText? (s : String) : Option Json := (words? s.toList).bind ofWords?

end Estimation.Json
