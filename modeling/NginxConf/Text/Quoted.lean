import NginxConf.Text.Unshown

/-!
# Quoted texts

A quoted text stands between double quotes. Quotes and backslashes get a backslash, tabs, line
feeds, carriage returns and NUL have short escapes, and every other character that would not be
shown is written by its number in hexadecimal digits.
-/

namespace NginxConf.Quoted

/-- The hexadecimal digits of a number, lower case and without padding. -/
def hexDigits (n : Nat) : Text := Nat.toDigits 16 n

/-- A character as it stands in a quoted text. -/
def encodeChar (c : Char) : Text :=
  if c = '\x00' then ['\\', '0']
  else if c = '\t' then ['\\', 't']
  else if c = '\n' then ['\\', 'n']
  else if c = '\r' then ['\\', 'r']
  else if c = '"' then ['\\', '"']
  else if c = '\\' then ['\\', '\\']
  else if isUnshown c then ['\\', 'u', '{'] ++ hexDigits c.toNat ++ ['}']
  else [c]

/-- A text in quotes. -/
def encode (s : Text) : Text := '"' :: (s.flatMap encodeChar ++ ['"'])

/-- Text that holds none of the special characters is shown as it is. -/
theorem encodeChar_of_plain {c : Char} (h : isUnshown c = false) (hquote : c ≠ '"')
    (hslash : c ≠ '\\') : encodeChar c = [c] := by
  have hcontrol : ∀ d : Char, d.toNat < 0x20 → c ≠ d := by
    rintro d hd rfl
    simp [isUnshown_of_lt hd] at h
  unfold encodeChar
  rw [if_neg (hcontrol _ (by decide)), if_neg (hcontrol _ (by decide)),
    if_neg (hcontrol _ (by decide)), if_neg (hcontrol _ (by decide)), if_neg hquote, if_neg hslash,
    h]
  rfl

end NginxConf.Quoted
