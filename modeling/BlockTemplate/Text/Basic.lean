/-!
# Texts

A text is a list of characters, so every scan below is a recursion on the data. Offsets into a text
are counted in the bytes of its UTF-8 encoding (`Text.size`); a reader of a text returns the rest it
did not read, and an offset is the difference of two sizes.
-/

namespace BlockTemplate

abbrev Text := List Char

namespace Text

def size : Text → Nat
  | [] => 0
  | c :: t => c.utf8Size + size t

@[simp] theorem size_nil : size [] = 0 := rfl

@[simp] theorem size_cons (c : Char) (t : Text) : size (c :: t) = c.utf8Size + size t := rfl

@[simp] theorem size_append (s t : Text) : size (s ++ t) = size s + size t := by
  induction s with
  | nil => simp
  | cons c s ih => simp [ih, Nat.add_assoc]

/-- The text cut at a byte offset, which must not lie within a character or behind the end. -/
def cutAt? : (offset : Nat) → Text → Option (Text × Text)
  | 0, t => some ([], t)
  | _ + 1, [] => none
  | n + 1, c :: t =>
    if c.utf8Size ≤ n + 1 then
      (cutAt? (n + 1 - c.utf8Size) t).map fun (s, rest) => (c :: s, rest)
    else none

def slice? (t : Text) (span : Nat × Nat) : Option Text := do
  let (upTo, _) ← cutAt? span.2 t
  let (_, s) ← cutAt? span.1 upTo
  return s

def decimal (n : Nat) : Text := Nat.toDigits 10 n

def signedDecimal : Int → Text
  | .ofNat n => decimal n
  | .negSucc n => '-' :: decimal (n + 1)

def trimEnd (p : Char → Bool) (t : Text) : Text := (t.reverse.dropWhile p).reverse

def trim (p : Char → Bool) (t : Text) : Text := trimEnd p (t.dropWhile p)

def splitOn (sep : Char) : Text → List Text
  | [] => [[]]
  | c :: t =>
    if c = sep then [] :: splitOn sep t
    else
      match splitOn sep t with
      | [] => [[c]]
      | part :: parts => (c :: part) :: parts

/-- The lines of a text. A newline ends a line, so a last line without text is no line. -/
def lines (t : Text) : List Text :=
  match (splitOn '\n' t).reverse with
  | [] :: rest => rest.reverse
  | all => all.reverse

def join (sep : Text) (parts : List Text) : Text := sep.intercalate parts

def expect {α : Type} [DecidableEq α] : List α → List α → Option (List α)
  | [], t => some t
  | _ :: _, [] => none
  | w :: word, c :: t => if w = c then expect word t else none

theorem expect_eq_some {α : Type} [DecidableEq α] {word t rest : List α} :
    expect word t = some rest ↔ t = word ++ rest := by
  induction word generalizing t with
  | nil => simp [expect]
  | cons w word ih =>
    cases t with
    | nil => simp [expect]
    | cons c t =>
      by_cases h : w = c
      · subst h; simp [expect, ih]
      · simp [expect, h, Ne.symm h]

def readSome (p : Char → Bool) (t : Text) : Option (Text × Text) :=
  match t.takeWhile p with
  | [] => none
  | run => some (run, t.dropWhile p)

end Text

end BlockTemplate
