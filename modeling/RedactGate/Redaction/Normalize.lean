import RedactGate.Library.Unicode

/-!
# Text normalization

NFKC folds compatibility forms to the characters the detectors expect, then the
invisible format characters go.
-/
namespace RedactGate

open Library

/-- `_INVISIBLE`. -/
def invisible : List Char :=
  ['\u200b', '\u200c', '\u200d', '\u2060', '\ufeff', '\u00ad']

/-- `normalize_text`. -/
def normalizeText (unicode : Unicode) (text : Text) : Text :=
  if text.isEmpty then text else (unicode.nfkc text).filter fun c => !invisible.contains c

end RedactGate
