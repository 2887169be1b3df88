import Moc.Clearsilver.HdfTree
import Moc.Lib.CText

/-!
# The text form of a dataset

`hdf_dump_cb` and `_hdf_read_string` of `client/clearsilver/util/neo_hdf.c`, with `repr_string_alloc` of
`neo_str.c`. A line gives a node its value, `name = value`, makes it a link, `name : target`, or opens a
level of children, `name {`, that `}` closes. A value of several lines stands between two lines with a
terminator, and the attributes stand in brackets behind the name.

The texts are C strings: none of them has a NUL.
-/

open CText Decimal

namespace Moc

/-! ## Writing -/

/-- `repr_string_alloc` of one character. -/
def reprChar (c : UInt8) : List UInt8 :=
  if isPrint c ∧ c ≠ 34 ∧ c ≠ 92 then [c]
  else if c = 10 then [92, 110]
  else if c = 9 then [92, 116]
  else if c = 13 then [92, 114]
  else if c = 34 ∨ c = 92 then [92, c]
  else [92, 48 + c / 64, 48 + c / 8 % 8, 48 + c % 8]

/-- `repr_string_alloc` -/
def reprString (s : List UInt8) : List UInt8 := 34 :: (s.flatMap reprChar ++ [34])

/-- The letters of a terminator: `EOM`, or what `gen_ml_break` draws into a buffer of ten bytes. -/
abbrev MlBreak := {w : List UInt8 // 2 ≤ w.length ∧ w.length ≤ 6 ∧ ∀ c ∈ w, 65 ≤ c ∧ c ≤ 90}

theorem eom_letters : 2 ≤ (ascii "EOM").length ∧ (ascii "EOM").length ≤ 6 ∧
    ∀ c ∈ ascii "EOM", 65 ≤ c ∧ c ≤ 90 := by
  simp [ascii]

/-- `EOM` -/
def eom : MlBreak := ⟨ascii "EOM", eom_letters⟩

/-- The terminator stands in the value: with a newline at both ends, or without the last one at the end
of a value that is longer than `ml`. -/
def clashes (ml : MlBreak) (value : List UInt8) : Bool :=
  decide (10 :: ml.1 ++ [10] <:+: value) ||
    decide (ml.1.length + 2 < value.length) && (10 :: ml.1).isSuffixOf value

/-- The loop that draws a terminator until one does not clash; none when the draws at hand do not do. -/
def chooseBreak : MlBreak → List MlBreak → List UInt8 → Option (MlBreak × List MlBreak)
  | ml, draws, value =>
    if clashes ml value then
      match draws with
      | [] => none
      | ml :: draws => chooseBreak ml draws value
    else some (ml, draws)

/-- `DUMP_TYPE_*` -/
inductive DumpType where
  | dotted
  | compact
  | pretty
  deriving DecidableEq

/-- `whsp` -/
def whsp (dtype : DumpType) (lvl : ℕ) : List UInt8 :=
  if dtype = .pretty then List.replicate (min lvl 127 * 2) 32 else []

/-- The name of a node behind the dotted name of its parent. -/
def dottedName (pre : Option (List UInt8)) (name : List UInt8) : List UInt8 :=
  match pre with
  | some pre => pre ++ 46 :: name
  | none => name

/-- The name of a node as `hdf_dump_cb` writes it. -/
def dumpName (dtype : DumpType) (pre : Option (List UInt8)) (lvl : ℕ) (name : List UInt8) :
    List UInt8 :=
  if dtype = .dotted ∧ pre ≠ none then dottedName pre name else whsp dtype lvl ++ name

/-- One attribute. -/
def dumpAttr (a : List UInt8 × List UInt8) : List UInt8 :=
  if a.2 = ascii "1" then a.1 else a.1 ++ 61 :: reprString a.2

/-- The attributes in their brackets. -/
def dumpAttrs (attr : HdfAttrs) : List UInt8 :=
  if attr = [] then []
  else ascii " [" ++ (ascii ", ").intercalate (attr.map dumpAttr) ++ ascii "] "

/-- The value, with the terminator `ml` where it has several lines. -/
def dumpValue (ml : MlBreak) (op : UInt8) (value : List UInt8) : List UInt8 :=
  if 10 ∈ value then
    ascii " << " ++ ml.1 ++ 10 :: value ++
      (if value.getLast? = some 10 then ml.1 ++ [10] else 10 :: ml.1 ++ [10])
  else 32 :: op :: 32 :: value ++ [10]

/-- The line or lines of one node: its text, the terminator behind it, and the draws left. -/
def dumpNode (dtype : DumpType) (pre : Option (List UInt8)) (lvl : ℕ) (name : List UInt8)
    (data : HdfFields) (ml : MlBreak) (draws : List MlBreak) :
    Option (List UInt8 × MlBreak × List MlBreak) :=
  match data.value.text with
  | none => some ([], ml, draws)
  | some value =>
    let op : UInt8 := if data.value.linkTo = none then 61 else 58
    (if 10 ∈ value then chooseBreak ml draws value else some (ml, draws)).map fun r =>
      (dumpName dtype pre lvl name ++ dumpAttrs data.attr ++ dumpValue r.1 op value, r.1, r.2)

/-- The text of a level of children in its braces. -/
def levelText (ws name text : List UInt8) : List UInt8 :=
  ws ++ name ++ ascii " \x7b\n" ++ text ++ ws ++ ascii "\x7d\n"

/-- `hdf_dump_cb` from the first child on, with the terminator `ml` and the draws of `gen_ml_break`: the
text and the draws left. -/
def dumpChain (dtype : DumpType) : Option (List UInt8) → ℕ → HdfChain → MlBreak → List MlBreak →
    Option (List UInt8 × List MlBreak)
  | _, _, .nil, _, draws => some ([], draws)
  | pre, lvl, .cons name data child next, ml, draws =>
    (dumpNode dtype pre lvl name data ml draws).bind fun own =>
      (if child = .nil then some ([], own.2.2)
        else if dtype = .dotted then
          dumpChain dtype (some (dottedName pre name)) (lvl + 1) child eom own.2.2
        else
          (dumpChain dtype (some name) (lvl + 1) child eom own.2.2).map fun r =>
            (levelText (whsp dtype lvl) name r.1, r.2)).bind fun below =>
        (dumpChain dtype pre lvl next own.2.1 below.2).map fun behind =>
          (own.1 ++ below.1 ++ behind.1, behind.2)

/-- `hdf_write_string` -/
def hdfWriteString (draws : List MlBreak) (hdf : HdfNode) : Option (List UInt8) :=
  (dumpChain .compact none 0 hdf.child eom draws).map Prod.fst

/-- What `hdf_write_file` writes. -/
def hdfDumpFormat (draws : List MlBreak) (hdf : HdfNode) : Option (List UInt8) :=
  (dumpChain .pretty (some []) 0 hdf.child eom draws).map Prod.fst

/-! ## Reading a line -/

/-- The character of an escape that is no number. -/
def unescape (c : UInt8) : UInt8 :=
  if c = 110 then 10 else if c = 116 then 9 else if c = 114 then 13 else c

/-- The number of an escape that starts with a digit, of up to three digits, and the rest. -/
def octal : List UInt8 → UInt8 × List UInt8
  | d :: e :: f :: s =>
    if isDigit e then
      if isDigit f then (((d - 48) * 8 + (e - 48)) * 8 + (f - 48), s)
      else ((d - 48) * 8 + (e - 48), f :: s)
    else (d - 48, e :: f :: s)
  | [d, e] => if isDigit e then ((d - 48) * 8 + (e - 48), []) else (d - 48, [e])
  | [d] => (d - 48, [])
  | [] => (0, [])

/-- The part of `parse_attr` behind an opening quote: the characters up to the closing quote and the rest,
or none without a closing quote. A backslash at the end of the line takes the loop behind the NUL. -/
def quotedLoop : ℕ → List UInt8 → Except HdfStop (Option (List UInt8 × List UInt8))
  | 0, _ => .ok none
  | _ + 1, [] => .ok none
  | fuel + 1, c :: s =>
    let push (c : UInt8) (s : List UInt8) : Except HdfStop (Option (List UInt8 × List UInt8)) := do
      return (← quotedLoop fuel s).map fun r => (c :: r.1, r.2)
    if c = 34 then .ok (some ([], s))
    else if c = 92 then
      if s = [] then .error .overrun
      else if s.head?.any isDigit then push (octal s).1 (octal s).2
      else push (unescape (s.headD 0)) s.tail
    else push c s

/-- The value of an attribute, from behind its key on. A key alone means `1`, of which `v_l` is 0
characters. -/
def attrValue (s : List UInt8) : Except HdfStop (Option (List UInt8 × List UInt8)) :=
  if s.head? = some 61 then
    let s := skipWs s.tail
    if s.head? = some 34 then do
      -- `neos_strndup` stops at a NUL.
      return (← quotedLoop s.length s.tail).map fun r => (r.1.takeWhile (· ≠ 0), r.2)
    else
      let v := s.takeWhile fun c => c ≠ 32 ∧ c ≠ 44 ∧ c ≠ 93
      let s := s.dropWhile fun c => c ≠ 32 ∧ c ≠ 44 ∧ c ≠ 93
      .ok (if s = [] then none else some (v, s))
  else .ok (some ([], s))

/-- The loop of `parse_attr`: the attributes and the line behind them, or none when they are malformed. -/
def attrLoop : ℕ → List UInt8 → Except HdfStop (Option (HdfAttrs × List UInt8))
  | 0, _ => .ok none
  | fuel + 1, s =>
    if s = [] then .ok none
    else if s.head? = some 93 then .ok (some ([], s.tail))
    else
      let k := s.takeWhile isAlnum
      let s := s.dropWhile isAlnum
      if s = [] ∨ k = [] then .ok none
      else do
        match ← attrValue (skipWs s) with
        | none => return none
        | some (v, s) =>
          let s := skipWs s
          let s := if s.head? = some 44 then skipWs s.tail else s
          return (← attrLoop fuel s).map fun r => ((k, v) :: r.1, r.2)

/-- `parse_attr`, from behind the bracket on. -/
def parseAttr (s : List UInt8) : Except HdfStop (Except NeoErr (HdfAttrs × List UInt8)) := do
  match ← attrLoop (s.length + 1) s with
  | none => return .error (nerrRaise nerrParse (ascii "Misformed attribute specification: " ++ s))
  | some r => return .ok r

/-- What a line says. -/
inductive HdfLine where
  | blank
  | up
  | bad (err : NeoErr)
  | assign (name value : List UInt8) (attr : HdfAttrs)
  | copy (name src : List UInt8) (attr : HdfAttrs)
  | link (name dest : List UInt8) (attr : HdfAttrs)
  | deeper (name : List UInt8) (attr : HdfAttrs)
  | multi (name terminator : List UInt8) (attr : HdfAttrs)

/-- The characters of a name. -/
def isNameChar (c : UInt8) : Bool := isAlnum c || c = 95 || c = 46 || 127 < c

/-- `[path:lineno] ` and a text. -/
def atLine (path : List UInt8) (lineno : ℕ) (text : List UInt8) : List UInt8 :=
  91 :: path ++ 58 :: print lineno ++ ascii "] " ++ text

/-- The part of `_hdf_read_string` behind the name and the attributes. `cut` is the line up to the name,
and `buf` what `line->buf` is when nothing matches. -/
def parseRest (path : List UInt8) (lineno : ℕ) (cut buf name : List UInt8) (attr : HdfAttrs) :
    List UInt8 → HdfLine
  | 61 :: s => .assign name (strip s) attr
  | 58 :: 61 :: s => .copy name (strip s) attr
  | 58 :: s => .link name (strip s) attr
  | 123 :: _ => .deeper name attr
  | 60 :: 60 :: s =>
    if strip s = [] then
      .bad (nerrRaise nerrParse
        (atLine path lineno (ascii "No multi-assignment terminator given: " ++ cut)))
    else .multi name (strip s) attr
  | _ => .bad (nerrRaise nerrParse (atLine path lineno (ascii "Unable to parse line " ++ buf)))

/-- One line of `_hdf_read_string`. An include is an error, unless `ignore` makes it a comment. -/
def parseLine (ignore : Bool) (path : List UInt8) (lineno : ℕ) (line : List UInt8) :
    Except HdfStop HdfLine :=
  let s := skipWs line
  if ascii "#include " <+: s ∧ ¬ignore then
    .ok (.bad (nerrRaise nerrParse
      (91 :: print lineno ++ ascii "]: #include not supported in string parse")))
  else
    match s with
    | [] => .ok .blank
    | 35 :: _ => .ok .blank
    | 125 :: _ =>
      .ok (if rstrip s = [125] then .up
        else .bad (nerrRaise nerrParse
          (atLine path lineno (ascii "Trailing garbage on line following \x7d: " ++ rstrip line))))
    | _ =>
      let name := s.takeWhile isNameChar
      let cut := line.takeWhile isSpace ++ name
      let s := skipWs (s.dropWhile isNameChar)
      if s.head? = some 91 then do
        match ← parseAttr s.tail with
        | .error err => return .bad err
        | .ok (attr, s) => return parseRest path lineno cut cut name attr (skipWs s)
      else .ok (parseRest path lineno cut line name [] s)

/-! ## Reading a text -/

/-- `_copy_line_advance`: the line and the text behind its newline. -/
def copyLineAdvance (str : List UInt8) : List UInt8 × List UInt8 :=
  (str.takeWhile (· ≠ 10), (str.dropWhile (· ≠ 10)).tail)

/-- The loop that reads a value of several lines, `m` of it so far, into a buffer of `mmax` bytes: the
value, the text behind the terminator, and the line number. -/
def multiLoop (value : List UInt8) : ℕ → ℕ → List UInt8 → List UInt8 → ℕ →
    List UInt8 × List UInt8 × ℕ
  | 0, _, m, str, lineno => (m, str, lineno)
  | fuel + 1, mmax, m, str, lineno =>
    let piece := (copyLine (mmax - m.length - 1) str).1
    let str := (copyLine (mmax - m.length - 1) str).2
    if piece = [] then (m, str, lineno)
    else if value <+: piece ∧ (piece.drop value.length).head?.any isSpace then (m, str, lineno + 1)
    else
      let m := m ++ piece
      let mmax := if m.length + value.length + 10 > mmax then mmax + 128 else mmax
      multiLoop value fuel mmax m str (lineno + 1)

/-- The value of several lines with a terminator. -/
def readMulti (value str : List UInt8) (lineno : ℕ) : List UInt8 × List UInt8 × ℕ :=
  multiLoop value (str.length + 1) 128 [] str lineno

/-- A value without `link`. -/
def HdfValue.unlinked : HdfValue → HdfValue
  | link dest => value dest
  | v => v

/-- The part of `_hdf_read_string` that finds or makes the node of `name {`. -/
def openLower (links : ℕ) (top : HdfNode) (hdf : HdfPtr) (name : List UInt8) (attr : HdfAttrs) :
    HdfRun HdfPtr :=
  (walkHdf links top hdf name).bind fun lower =>
    match lower with
    | none => setValue links top hdf name .null attr
    | some lower =>
      setValue links top lower [] (((top.find lower).map (·.data.value.unlinked)).getD .null) attr

/-- `_hdf_read_string` into a node, with the dataset, the node, the text and the line number: the rest of
the text and the line number after it. -/
abbrev HdfReader := HdfNode → HdfPtr → List UInt8 → ℕ → HdfRun (List UInt8 × ℕ)

/-- The part of `_hdf_read_string` that follows a line; `again` is the loop from the line after it on, and
the call for a level of children. -/
def execLine (links : ℕ) (again : HdfReader) (top : HdfNode) (hdf : HdfPtr) (str : List UInt8)
    (lineno : ℕ) : HdfLine → HdfRun (List UInt8 × ℕ)
  | .blank => again top hdf str lineno
  | .up => .ok (top, .ok (str, lineno))
  | .bad err => .ok (top, .error err)
  | .assign name value attr =>
    (setValue links top hdf name (.value value) attr).andThen fun top _ => again top hdf str lineno
  | .copy name src attr =>
    (hdfGetValue links top [] src).bind fun value =>
      (setValue links top hdf name (.value (value.getD [])) attr).andThen fun top _ =>
        again top hdf str lineno
  | .link name dest attr =>
    (setValue links top hdf name (.link dest) attr).andThen fun top _ => again top hdf str lineno
  | .deeper name attr =>
    (openLower links top hdf name attr).andThen fun top lower =>
      (again top lower str lineno).andThen fun top r => again top hdf r.1 r.2
  | .multi name terminator attr =>
    let r := readMulti terminator str lineno
    (setValue links top hdf name (.value r.1) attr).andThen fun top _ => again top hdf r.2.1 r.2.2

/-- The loop of `_hdf_read_string` from the next line on. -/
def readStep (links : ℕ) (ignore : Bool) (path : List UInt8) (again : HdfReader) : HdfReader :=
  fun top hdf str lineno =>
    if str = [] then .ok (top, .ok ([], lineno))
    else
      (parseLine ignore path (lineno + 1) (copyLineAdvance str).1).bind
        (execLine links again top hdf (copyLineAdvance str).2 (lineno + 1))

/-- `_hdf_read_string` on a text of fewer than `fuel` characters. -/
def readLevel (links : ℕ) (ignore : Bool) (path : List UInt8) : ℕ → HdfReader
  | 0 => fun _ _ _ _ => .error .endless
  | fuel + 1 => readStep links ignore path (readLevel links ignore path fuel)

/-- `_hdf_read_string` -/
def readString (links : ℕ) (ignore : Bool) (path : List UInt8) : HdfReader :=
  fun top hdf str lineno => readLevel links ignore path (str.length + 1) top hdf str lineno

/-- `hdf_read_string_ignore`, and `hdf_read_string` without `ignore`. -/
def hdfReadString (links : ℕ) (ignore : Bool) (top : HdfNode) (str : List UInt8) : HdfRun Unit :=
  (readString links ignore (ascii "<string>") top [] str 0).andThen fun top _ => .ok (top, .ok ())

end Moc
