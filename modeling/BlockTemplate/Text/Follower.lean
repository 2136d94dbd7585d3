import BlockTemplate.Text.Columns
import BlockTemplate.Text.Emoji
import BlockTemplate.Text.Ligature

/-!
# What follows a character

A terminal shows some sequences of characters as one: emoji with skin tones, joined emoji, flags,
ligatures. A text is measured from its end, and a `Follower` holds what the character in front has
to know of the text behind it. `step` says how many columns that character adds.
-/

namespace BlockTemplate.Text

inductive Form where
  | text
  | emoji
  deriving Repr, DecidableEq

/-- Letters, or the ends of ligatures, that may join with a letter in front. -/
inductive Ligature where
  | hebrewLamed
  | bugineseYa
  /-- the Buginese vowel sign i, joined with a letter ya -/
  | bugineseVowelYa
  | tifinaghLetter
  /-- the Tifinagh consonant joiner with a letter behind it -/
  | tifinaghPair
  | secondTone
  | orkhonI
  | khmerLetter
  deriving Repr, DecidableEq

inductive Opening where
  | other
  | lineFeed
  /-- a letter, with or without a zero width joiner among the marks in front of it -/
  | ligature (letter : Ligature) (joined : Bool)
  | arabicAlef
  | kiratE
  | kiratAi
  | emoji
  | modifier
  /-- one regional indicator, or several -/
  | indicator
  | indicators
  /-- a joiner with an emoji behind it -/
  | joiner
  /-- a keycap in front of such a joiner -/
  | keycap
  /-- regional indicators in front of such a joiner: one, an even number, or an odd one -/
  | joinedIndicator
  | evenIndicators
  | oddIndicators
  /-- the end of the tags of a flag in front of such a joiner, with tag letters in front of it -/
  | tagLetters (count : Nat)
  /-- the same with tag digits in front -/
  | tagDigits (count : Nat)
  deriving Repr, DecidableEq

structure Follower where
  opening : Opening
  form : Option Form
  deriving Repr, DecidableEq

namespace Opening

def ofChar (c : Char) : Opening :=
  if c = '\n' then .lineFeed
  else if c.toNat ≤ 0xA0 then .other
  else if isKhmerLetter c then .ligature .khmerLetter false
  else if isHebrewLamed c then .ligature .hebrewLamed false
  else if isBugineseYa c then .ligature .bugineseYa false
  else if isTifinaghLetter c then .ligature .tifinaghLetter false
  else if isSecondTone c then .ligature .secondTone false
  else if isOrkhonI c then .ligature .orkhonI false
  else if isArabicAlef c then .arabicAlef
  else if isKiratE c then .kiratE
  else if isKiratAi c then .kiratAi
  else if isIndicator c then .indicator
  else if isModifier c then .modifier
  else if isEmoji c then .emoji
  else .other

def keepsSelectors : Opening → Bool
  | .ligature .. | .arabicAlef => true
  | _ => false

def awaitsEmoji : Opening → Bool
  | .joiner | .keycap => true
  | _ => false

def select (form : Form) (o : Opening) : Follower :=
  if o.keepsSelectors || (form == .emoji && o.awaitsEmoji) then ⟨o, some form⟩
  else ⟨.other, some form⟩

end Opening

def Ligature.join? (c : Char) (joined : Bool) (l : Ligature) : Option (Int × Opening) :=
  if c = zeroWidthJoiner then some (0, .ligature l true)
  else if isLigatureMark c then some (0, .ligature l joined)
  else match l with
  | .hebrewLamed => if joined && isHebrewAlef c then some (0, .other) else none
  | .bugineseYa =>
    if joined && isBugineseVowelI c then some (0, .ligature .bugineseVowelYa true) else none
  | .bugineseVowelYa => if isBugineseA c then some (0, .other) else none
  | .tifinaghLetter =>
    if isTifinaghJoiner c then some (1, .ligature .tifinaghPair true)
    else if joined && isTifinaghLetter c then some (0, .other)
    else none
  | .tifinaghPair => if isTifinaghLetter c then some (-1, .other) else none
  | .secondTone => if isFirstTone c then some (0, .other) else none
  | .orkhonI => if joined && isOrkhonEch c then some (0, .other) else none
  | .khmerLetter => if isKhmerSubscriptSign c then some (-1, .other) else none

def Opening.join? (c : Char) : Opening → Option (Int × Opening)
  | .other => none
  | .lineFeed => if c = '\r' then some (0, .other) else none
  | .ligature l joined => l.join? c joined
  | .arabicAlef =>
    if isArabicLam c then some (0, .other)
    else if inRanges c.toNat zeroWidthRanges && !inRanges c.toNat partingRanges then
      some (0, .arabicAlef)
    else none
  | .kiratE =>
    if isKiratAa c || isKiratO c then some (0, .other)
    else if isKiratE c then some (0, .kiratAi)
    else if isKiratAi c then some (1, .kiratE)
    else none
  | .kiratAi => if isKiratAa c then some (0, .other) else none
  | .emoji => if c = zeroWidthJoiner then some (0, .joiner) else none
  | .modifier =>
    if isModifierBase c then some (0, .emoji)
    else if c = zeroWidthJoiner then some (0, .joiner)
    else none
  | .indicator => if isIndicator c then some (1, .indicators) else none
  | .indicators =>
    if isIndicator c then some (1, .indicators)
    else if c = zeroWidthJoiner then some (0, .joiner)
    else none
  | .joiner =>
    if c = enclosingKeycap then some (0, .keycap)
    else if isIndicator c then some (1, .joinedIndicator)
    else if isModifier c then some (0, .modifier)
    else if isTagEnd c then some (0, .tagLetters 0)
    else if isEmoji c then some (0, .emoji)
    else none
  | .keycap => none
  | .joinedIndicator => if isIndicator c then some (-1, .evenIndicators) else none
  | .evenIndicators =>
    if isIndicator c then some (3, .oddIndicators)
    else if c = zeroWidthJoiner then some (0, .joiner)
    else none
  | .oddIndicators =>
    if isIndicator c then some (-1, .evenIndicators)
    else if c = zeroWidthJoiner then some (0, .joiner)
    else none
  | .tagLetters n =>
    if isTagLetter c && n < 6 then some (0, .tagLetters (n + 1))
    else if isTagDigit c && n < 5 then some (0, .tagDigits 1)
    else if isFlag c && 3 ≤ n then some (0, .emoji)
    else none
  | .tagDigits n =>
    if isTagDigit c && n < 3 then some (0, .tagDigits (n + 1))
    else if isFlag c && n == 3 then some (0, .emoji)
    else none

theorem apart_khmerLetterRanges : apart khmerLetterRanges zeroWidthRanges = true := by
  decide +kernel

theorem columns_pos_of_isKhmerLetter {c : Char} (h : isKhmerLetter c = true) : 0 < columns c := by
  have hz : inRanges c.toNat zeroWidthRanges = false :=
    inRanges_eq_false_of_apart apart_khmerLetterRanges ascendFrom_khmerLetterRanges
      ascendFrom_zeroWidthRanges h
  have hn : c ≠ '\n' := by
    rintro rfl
    exact absurd h (by decide +kernel)
  unfold columns
  grind

namespace Opening

/-- Columns that a character in front may take back. -/
def owed : Opening → Int
  | .ligature .khmerLetter _ | .ligature .tifinaghPair _ | .joinedIndicator | .oddIndicators => 1
  | _ => 0

theorem owed_nonneg (o : Opening) : 0 ≤ o.owed := by
  unfold owed; split <;> decide

theorem owed_ofChar_le (c : Char) : (ofChar c).owed ≤ columns c := by
  by_cases h : isKhmerLetter c = true
  · have := columns_pos_of_isKhmerLetter h
    have : (ofChar c).owed ≤ 1 := by unfold owed; split <;> decide
    omega
  · have : (ofChar c).owed = 0 := by
      simp only [ofChar, h, apply_ite owed]
      simp [owed]
    omega

theorem owed_le_of_join? {c : Char} {o p : Opening} {n : Int} (h : o.join? c = some (n, p)) :
    p.owed ≤ o.owed + n := by
  cases o with
  | ligature l joined => cases l <;> grind [join?, Ligature.join?, owed]
  | _ => grind [join?, owed]

theorem owed_select_le (form : Form) (o : Opening) : (o.select form).opening.owed ≤ o.owed := by
  have := o.owed_nonneg
  unfold select
  split
  · exact Int.le_refl _
  · exact this

end Opening

namespace Follower

def nothing : Follower := ⟨.other, none⟩

def unselected (f : Follower) : Opening :=
  if f.form.isNone || f.opening.keepsSelectors then f.opening else .other

def step (c : Char) (f : Follower) : Int × Follower :=
  if f.form = some .emoji ∧ isSelectable c then
    (if f.opening.awaitsEmoji then 0 else 2, ⟨.emoji, none⟩)
  else if c = emojiSelector then (0, f.unselected.select .emoji)
  else if c = textSelector then (0, f.unselected.select .text)
  else if f.form = some .text ∧ isNarrowAsText c then (1, nothing)
  else
    match f.unselected.join? c with
    | some (n, o) => (n, ⟨o, none⟩)
    | none => (columns c, ⟨.ofChar c, none⟩)

theorem owed_unselected_le (f : Follower) : f.unselected.owed ≤ f.opening.owed := by
  have := f.opening.owed_nonneg
  unfold unselected
  split
  · exact Int.le_refl _
  · exact this

theorem owed_step_le (c : Char) (f : Follower) :
    (f.step c).2.opening.owed ≤ f.opening.owed + (f.step c).1 := by
  have hf := f.opening.owed_nonneg
  have hu := f.owed_unselected_le
  unfold step
  split
  · show 0 ≤ _
    split <;> omega
  · split
    · have := f.unselected.owed_select_le .emoji
      simp only
      omega
    · split
      · have := f.unselected.owed_select_le .text
        simp only
        omega
      · split
        · show 0 ≤ _
          omega
        · split
          · next n o h =>
            have : o.owed ≤ f.unselected.owed + n := Opening.owed_le_of_join? h
            show o.owed ≤ f.opening.owed + n
            omega
          · have := Opening.owed_ofChar_le c
            show (Opening.ofChar c).owed ≤ f.opening.owed + columns c
            omega

theorem step_nothing {c : Char} (h : c.toNat ≤ 0xA0) (hn : c ≠ '\n') :
    nothing.step c = (1, nothing) := by
  have h1 : c ≠ emojiSelector := by rintro rfl; exact absurd h (by decide)
  have h2 : c ≠ textSelector := by rintro rfl; exact absurd h (by decide)
  simp [step, nothing, unselected, Opening.join?, columns, Opening.ofChar, h, hn, h1, h2]

end Follower

end BlockTemplate.Text
