import Mathlib.Data.List.Infix
import Marshal.Lib.Regex

/-! Error signatures: which stderr lines count as errors, and what they are grouped by.

A line's message is normalised, so that lines that differ in a time, a number or an
address agree, and its signature is the start of the digest of what is left. The lower
case of a character and the digest are the library's. -/
namespace Marshal.Errsig
open Regex Pat

/-- `unicode.ToLower`, and SHA-256 in hexadecimal. -/
structure Library where
  toLower : Char → Char
  sha256Hex : String → String

/-- It agrees with the library on ASCII texts that are normalised to `error`. -/
def asciiLibrary : Library where
  toLower := Char.toLower
  sha256Hex s :=
    if s = "error" then "ca00fccfb408989eddc401062c4d1219a6aceb6b9b55412357f1790862e8f178" else ""

variable (lib : Library)

def lower (text : List Char) : List Char := text.map lib.toLower

/-! ### What counts as an error -/

def infoWarnMarkers : List String :=
  ["level=info", "level=debug", "level=trace", "level=warn", "level=warning",
    "[info]", "[debug]", "[trace]", "[warn]", "[warning]", "[notice]"]

def errorMarkers : List String :=
  ["error", "fatal", "panic", "exception", "traceback (most recent call last)", "level=error"]

def spaces : Pat := .star (.one space)

/-- `^\s*\[?(?:debug|info|notice|trace|warn|warning)\b` -/
def reLevelPrefix : Pat :=
  all [.start, spaces, opt (char '['), any (["debug", "info", "notice", "trace", "warn", "warning"].map text),
    .boundary]

def contains (l : List Char) (marker : String) : Bool := decide (marker.toList <:+: l)

def IsError (text : String) : Bool :=
  let l := lower lib text.toList
  if errorMarkers.any (contains l) then true
  else if infoWarnMarkers.any (contains l) then false
  else !reLevelPrefix.matchesIn l

/-! ### Normalisation -/

def digits : Pat := plus (.one digit)

/-- `\d{n}` -/
def fixed (n : Nat) : Pat := times n (.one digit)

/-- `(\.\d+)?` -/
def decimals : Pat := opt (all [char '.', digits])

/-- `\d{2}:\d{2}:\d{2}(\.\d+)?` -/
def clock : Pat := all [fixed 2, char ':', fixed 2, char ':', fixed 2, decimals]

/-- `(Z|[+-]\d{2}:?\d{2})?` -/
def zone : Pat :=
  opt (any [char 'Z', all [.one fun c => c == '+' || c == '-', fixed 2, opt (char ':'), fixed 2]])

/-- `^\s*\[?\d{4}-\d{2}-\d{2}[ T]\d{2}:\d{2}:\d{2}(\.\d+)?(Z|[+-]\d{2}:?\d{2})?\]?\s*` -/
def reTimestamp : Pat :=
  all [.start, spaces, opt (char '['), fixed 4, char '-', fixed 2, char '-', fixed 2,
    .one fun c => c == ' ' || c == 'T', clock, zone, opt (char ']'), spaces]

/-- `^\s*\[?\d{2}:\d{2}:\d{2}(\.\d+)?\]?\s*` -/
def reTimeOnly : Pat := all [.start, spaces, opt (char '['), clock, opt (char ']'), spaces]

def quoted (q : Char) : Pat := all [char q, .star (.one fun c => c != q), char q]

def reQuoted : Pat := any [quoted '"', quoted '\'', quoted '\x60']

def hexDigits (n : Nat) : Pat := times n (.one hexDigit)

/-- `\b[0-9a-fA-F]{8}-[0-9a-fA-F]{4}-[0-9a-fA-F]{4}-[0-9a-fA-F]{4}-[0-9a-fA-F]{12}\b` -/
def reUUID : Pat :=
  all [.boundary, hexDigits 8, char '-', hexDigits 4, char '-', hexDigits 4, char '-', hexDigits 4,
    char '-', hexDigits 12, .boundary]

/-- `0x[0-9a-fA-F]+|\b[0-9a-fA-F]{12,}\b` -/
def reHex : Pat :=
  any [all [text "0x", plus (.one hexDigit)],
    all [.boundary, hexDigits 12, .star (.one hexDigit), .boundary]]

/-- `\d{1,3}` -/
def octet : Pat := .seq (.one digit) (upTo 2 (.one digit))

/-- `(:\d+)?` -/
def port : Pat := opt (all [char ':', digits])

/-- `\b\d{1,3}(\.\d{1,3}){3}(:\d+)?\b` -/
def reAddr : Pat :=
  all [.boundary, octet, times 3 (all [char '.', octet]), port, .boundary]

/-- `(?:[A-Za-z]:\\|/|\./)[^\s:]+(?::\d+)?` -/
def rePath : Pat :=
  all [any [all [.one letter, text ":\\"], char '/', text "./"],
    plus (.one fun c => !(space c || c == ':')), port]

/-- `ki?b` and the like. -/
def bytesUnit (magnitude : String) : Pat :=
  all [caseless magnitude, opt (caseless "i"), caseless "b"]

/-- `(?i)\b\d+(\.\d+)?(ns|us|µs|ms|s|m|h|ki?b|mi?b|gi?b|b)?\b` -/
def reNum : Pat :=
  all [.boundary, digits, decimals,
    opt (any (["ns", "us", "\u00b5s", "ms", "s", "m", "h"].map caseless ++
      ["k", "m", "g"].map bytesUnit ++ [caseless "b"])),
    .boundary]

/-- `\s+` -/
def reSpace : Pat := plus (.one space)

/-- `unicode.IsSpace` -/
def unicodeSpace (c : Char) : Bool :=
  c ∈ ['\t', '\n', '\x0b', '\x0c', '\r', ' ', '\u0085', '\u00a0', '\u1680', '\u2028', '\u2029', '\u202f',
    '\u205f', '\u3000'] || decide ('\u2000' ≤ c ∧ c ≤ '\u200a')

/-- `strings.TrimSpace` -/
def trimSpace (s : List Char) : List Char :=
  ((s.dropWhile unicodeSpace).reverse.dropWhile unicodeSpace).reverse

/-- The patterns and what their matches are replaced with, in turn. -/
def rewrites : List (Pat × String) :=
  [(reTimestamp, ""), (reTimeOnly, ""), (reQuoted, "<str>"), (reUUID, "<uuid>"), (reHex, "<hex>"),
    (reAddr, "<addr>"), (rePath, "<path>"), (reNum, "<num>"), (reSpace, " ")]

def Normalize (text : String) : String :=
  let s := rewrites.foldl (fun s r => r.1.replaceAll s r.2.toList) text.toList
  String.ofList (lower lib (trimSpace s))

/-- Twelve hexadecimal digits. -/
def Signature (text : String) : String :=
  String.ofList ((lib.sha256Hex (Normalize lib text)).toList.take 12)

/-! ### Where an error comes from -/

/-- `File "([^"]+)", line (\d+)` -/
def reSrcPy : Pat :=
  all [text "File \"", .group (plus (.one fun c => c != '"')), text "\", line ", .group digits]

/-- `[\w./\\-]` -/
def pathChar (c : Char) : Bool := word c || c ∈ ['.', '/', '\\', '-']

/-- `([\w./\\-]+\.(?:go|py|js|ts|rb|rs|java|c|cc|cpp|h|hpp|php|cs|kt|swift|scala|ex|exs)):(\d+)` -/
def reSrcGo : Pat :=
  all [.group (all [plus (.one pathChar), char '.',
      any (["go", "py", "js", "ts", "rb", "rs", "java", "c", "cc", "cpp", "h", "hpp", "php", "cs", "kt",
        "swift", "scala", "ex", "exs"].map text)]),
    char ':', .group digits]

/-- `\bat ([\w./\\-]+):(\d+)` -/
def reSrcAt : Pat :=
  all [.boundary, text "at ", .group (plus (.one pathChar)), char ':', .group digits]

/-- The last path element. -/
def baseName (p : List Char) : List Char :=
  (p.reverse.takeWhile fun c => !(c == '/' || c == '\\')).reverse

/-- The file and line a pattern finds in a line. -/
def sourceIn (ln : String) (re : Pat) : Option String :=
  match re.find ln.toList with
  | some [file, line] => some (String.ofList (baseName file ++ ':' :: line))
  | _ => none

/-- The first line of the window with a file and line; the patterns in turn. -/
def Source (window : List String) : String :=
  (window.findSome? fun ln => [reSrcPy, reSrcGo, reSrcAt].findSome? (sourceIn ln)).getD ""

/-- The line begins a stack trace whose source is named on the lines after it. -/
def isTraceHeader (text : String) : Bool :=
  let l := lower lib text.toList
  ["panic:", "goroutine ", "fatal error:"].any (fun m => m.toList.isPrefixOf l) ||
    ["traceback (most recent call last)", "exception"].any (contains l)

end Marshal.Errsig
