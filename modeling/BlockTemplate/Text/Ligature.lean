import BlockTemplate.Text.Ranges

/-!
# Letters in ligatures

Letters of several scripts that are shown as one with the letters before them, and the marks that
may stand between the letters of such a ligature.
-/

namespace BlockTemplate.Text

def isLigatureMark (c : Char) : Bool :=
  inRanges c.toNat [(0x034F, 0x034F), (0x17B4, 0x17B5), (0x180B, 0x180D), (0x180F, 0x180F),
    (0xFE00, 0xFE0F), (0xE0100, 0xE01EF)]

def isHebrewAlef (c : Char) : Bool := c == '\u05d0'

def isHebrewLamed (c : Char) : Bool := c == '\u05dc'

def isArabicLam (c : Char) : Bool :=
  inRanges c.toNat [(0x0644, 0x0644), (0x06B5, 0x06B8), (0x076A, 0x076A), (0x08A6, 0x08A6),
    (0x08C7, 0x08C7)]

def isArabicAlef (c : Char) : Bool :=
  inRanges c.toNat [(0x0622, 0x0623), (0x0625, 0x0625), (0x0627, 0x0627), (0x0671, 0x0673),
    (0x0675, 0x0675), (0x0773, 0x0774), (0x0870, 0x0882)]

/-- Characters without a column that part joined Arabic letters: not of joining type Transparent. -/
def partingRanges : List (Nat × Nat) :=
  [(0x0605, 0x0605), (0x0890, 0x0891), (0x08E2, 0x08E2), (0x09BE, 0x09BE), (0x09D7, 0x09D7),
   (0x0B3E, 0x0B3E), (0x0B57, 0x0B57), (0x0BBE, 0x0BBE), (0x0BD7, 0x0BD7), (0x0CC0, 0x0CC0),
   (0x0CC2, 0x0CC2), (0x0CC7, 0x0CC8), (0x0CCA, 0x0CCB), (0x0CD5, 0x0CD6), (0x0D3E, 0x0D3E),
   (0x0D4E, 0x0D4E), (0x0D57, 0x0D57), (0x0DCF, 0x0DCF), (0x0DDF, 0x0DDF), (0x1160, 0x11FF),
   (0x1715, 0x1715), (0x1734, 0x1734), (0x180E, 0x180E), (0x1B35, 0x1B35), (0x1B3B, 0x1B3B),
   (0x1B3D, 0x1B3D), (0x1B43, 0x1B44), (0x1BAA, 0x1BAA), (0x1BF2, 0x1BF3), (0x200C, 0x200D),
   (0x2065, 0x2069), (0x302E, 0x302F), (0x3164, 0x3164), (0xA8FA, 0xA8FA), (0xA953, 0xA953),
   (0xA9C0, 0xA9C0), (0xD7B0, 0xD7C6), (0xD7CB, 0xD7FB), (0xFF9E, 0xFFA0), (0xFFF0, 0xFFF8),
   (0x111C0, 0x111C0), (0x111C2, 0x111C3), (0x11235, 0x11235), (0x1133E, 0x1133E),
   (0x1134D, 0x1134D), (0x11357, 0x11357), (0x113B8, 0x113B8), (0x113C2, 0x113C2),
   (0x113C5, 0x113C5), (0x113C7, 0x113C9), (0x113CF, 0x113CF), (0x113D1, 0x113D1),
   (0x114B0, 0x114B0), (0x114BD, 0x114BD), (0x115AF, 0x115AF), (0x116B6, 0x116B6),
   (0x11930, 0x11930), (0x1193D, 0x1193D), (0x1193F, 0x1193F), (0x11941, 0x11941),
   (0x11A3A, 0x11A3A), (0x11A84, 0x11A89), (0x11D46, 0x11D46), (0x11F02, 0x11F02),
   (0x11F41, 0x11F41), (0x16FF0, 0x16FF1), (0x1D165, 0x1D166), (0x1D16D, 0x1D172),
   (0xE0000, 0xE0000), (0xE0002, 0xE001F), (0xE0080, 0xE00FF), (0xE01F0, 0xE0FFF)]

theorem ascendFrom_partingRanges : ascendFrom 0 partingRanges = true := by decide +kernel

def khmerLetterRanges : List (Nat × Nat) :=
  [(0x1780, 0x1782), (0x1784, 0x1787), (0x1789, 0x178C), (0x178E, 0x1793), (0x1795, 0x1798),
   (0x179B, 0x179D), (0x17A0, 0x17A0), (0x17A2, 0x17A2), (0x17A7, 0x17A7), (0x17AB, 0x17AC),
   (0x17AF, 0x17AF)]

theorem ascendFrom_khmerLetterRanges : ascendFrom 0 khmerLetterRanges = true := by decide +kernel

def isKhmerLetter (c : Char) : Bool := inRanges c.toNat khmerLetterRanges

def isKhmerSubscriptSign (c : Char) : Bool := c == '\u17d2'

def isBugineseA (c : Char) : Bool := c == '\u1a15'

def isBugineseVowelI (c : Char) : Bool := c == '\u1a17'

def isBugineseYa (c : Char) : Bool := c == '\u1a10'

def isTifinaghLetter (c : Char) : Bool := inRanges c.toNat [(0x2D31, 0x2D65), (0x2D6F, 0x2D6F)]

def isTifinaghJoiner (c : Char) : Bool := c == '\u2d7f'

def isFirstTone (c : Char) : Bool := inRanges c.toNat [(0xA4F8, 0xA4FB)]

def isSecondTone (c : Char) : Bool := inRanges c.toNat [(0xA4FC, 0xA4FD)]

def isOrkhonEch (c : Char) : Bool := c.toNat == 0x10C32

def isOrkhonI (c : Char) : Bool := c.toNat == 0x10C03

def isKiratAa (c : Char) : Bool := c.toNat == 0x16D63

def isKiratE (c : Char) : Bool := c.toNat == 0x16D67

def isKiratAi (c : Char) : Bool := c.toNat == 0x16D68

def isKiratO (c : Char) : Bool := c.toNat == 0x16D69

end BlockTemplate.Text
