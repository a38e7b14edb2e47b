import Jericho.Library.Pattern
import Jericho.System.Router

/-! `iris::interpret`: the directives of a page are found in its original text and replaced in five
passes over the text as it then is. The cache is left out: it is cleared before it is asked. -/
namespace Jericho.Iris
open StdText Util
variable {σ : Type}

/-! The directives. Braces are written as escapes. -/

/-- `.` -/
def dot : Pattern Byte := .sat fun c => c ≠ 10 && c ≠ 13

/-- `[\s\S]` -/
def character : Pattern Byte := .sat fun _ => true

/-- `(.+\$|\$)` -/
def dollar : Pattern Byte := .alt (.seq dot.plus (.text (lit "$"))) (.text (lit "$"))

/-- `(=.+)?\]\{` -/
def argument : Pattern Byte := .seq (.optional (.seq (.text (lit "=")) dot.plus)) (.text (lit "]\x7b"))

def idoc : Pattern Byte := .text (lit "$[idoc]$")

def ipart : Pattern Byte :=
  .seq (.text (lit "$[ipart]\x7b")) (.seq dot.plus (.seq (.text (lit "\x7d")) dollar))

def iform : Pattern Byte :=
  .seq (.text (lit "$[iform")) (.seq argument (.seq character.plus (.text (lit "\x7d$\r\n"))))

def ilink : Pattern Byte :=
  .seq (.text (lit "$[ilink")) (.seq argument (.seq dot.plus (.seq (.text (lit "\x7d")) dollar)))

def itemp : Pattern Byte :=
  .seq (.text (lit "$[itemp=")) (.seq dot.plus (.seq (.text (lit "]"))
    (.seq (.optional (.seq (.text (lit "(")) (.seq dot.plus (.text (lit ")")))))
      (.seq (.text (lit "\x7b")) (.seq character.plus (.seq (.text (lit "\x7d")) dollar))))))

/-- A matched text and its position, which is kept in an `int`. -/
structure Lex where
  first : Bytes
  second : Int
  deriving DecidableEq

def Lex.ofMatch (m : Bytes × Nat) : Lex := ⟨m.1, Int.bmod m.2 (2^32)⟩

def scanzz (substr : Bytes) (rgx : Pattern Byte) : List Lex := (rgx.scan substr).map Lex.ofMatch

/-- `replace`: the first occurrence of a text. -/
def replace (str sub rep : Bytes) : Bytes :=
  match Occurrence.find sub str with
  | some p => str.take p ++ rep ++ str.drop (p + sub.length)
  | none => str

/-- The range that the template pass cuts out, in `size_t`. -/
def Lex.start (lex : Lex) : Nat := (lex.second % 2^64).toNat
def Lex.stop (lex : Lex) : Nat := (lex.start + lex.first.length) % 2^64

/-- The template pass puts the new text at the old position; `substr` throws behind the end. -/
def replaceAt (str : Bytes) (lex : Lex) (bytes : Bytes) : Exec Bytes :=
  if lex.stop ≤ str.length then .ok (str.take lex.start ++ bytes ++ str.drop lex.stop) else .error .outOfRange

/-- What `parseLink` collects. -/
structure LinkScan where
  linkGate : Bool := false
  labelGate : Bool := false
  linkPath : Bytes := []
  label : Bytes := []

def LinkScan.read (l : LinkScan) (c : Byte) : LinkScan :=
  if c = 123 then { l with linkGate := true }
  else if c = 93 then { l with labelGate := false }
  else if c = 125 then { l with linkGate := false }
  else if c = 61 then { l with labelGate := true }
  else
    { l with
      linkPath := if l.linkGate then l.linkPath ++ [c] else l.linkPath
      label := if l.labelGate then l.label ++ [c] else l.label }

def parseLink (router : Router σ) (lex : Lex) : Bytes :=
  let l := lex.first.foldl LinkScan.read {}
  if l.linkPath ≠ [] ∧ router.contains l.linkPath then
    let ipath := router.ipath l.linkPath
    let label := if l.label = [] then ipath else l.label
    lit "<a class=\"link\" href=\"" ++ ipath ++ lit "\">" ++ label ++ lit "</a>"
  else lit "undefined - should throw iris error"

/-- The files that pages are made of. A file that does not exist reads as empty. -/
structure Disk where
  getDir : Bytes → List Bytes
  read : Bytes → Bytes

/-- The name between the braces of an `ipart`. -/
def partialName (text : Bytes) : Bytes :=
  (text.foldl (fun (s : Bool × Bytes) c =>
    if c = 123 then (true, s.2) else if c = 125 then (false, s.2)
    else if s.1 then (true, s.2 ++ [c]) else s) (false, [])).2

/-- What the lookup in a package has read of `@package.path`, and the last file that matched. -/
structure PackageScan where
  pack : Bool := false
  packPathGate : Bool := false
  packName : Bytes := []
  packPath : Bytes := []
  partialPath : Option Bytes := none

/-- Every character is followed by a look into the package directory. -/
def PackageScan.read (disk : Disk) (l : PackageScan) (c : Byte) : PackageScan :=
  if c = 64 then { l with pack := true }
  else if c = 46 then { l with pack := false, packPathGate := true }
  else
    let packName := if l.pack then l.packName ++ [c] else l.packName
    let packPath := if l.packPathGate then l.packPath ++ [c] else l.packPath
    let packageDir := lit "./public/frontend/" ++ packName ++ lit "/"
    { l with
      packName := packName
      packPath := packPath
      partialPath :=
        if (disk.getDir packageDir).contains (lit "_" ++ packPath)
          then some (packageDir ++ lit "_" ++ packPath) else l.partialPath }

/-- The file of the partial that a directive names, if there is one. -/
def partialPath (disk : Disk) (dir : Bytes) (files : List Bytes) (lex : Lex) : Option Bytes :=
  let name := partialName lex.first
  if (64 : Byte) ∈ name then (name.foldl (PackageScan.read disk) {}).partialPath
  else if files.contains (lit "_" ++ name) then some (dir ++ lit "_" ++ name)
  else none

/-- The contents of the partial that a directive names; nothing if there is no such file. -/
def partialContents (disk : Disk) (dir : Bytes) (files : List Bytes) (lex : Lex) : Bytes :=
  ((partialPath disk dir files lex).map fun path => disk.read (cstr path)).getD []

/-- What a page is interpreted with. Forms and templates have parsers of their own; here only their
results are put into the page. -/
structure Env (σ : Type) where
  router : Router σ
  disk : Disk
  parseForm : Lex → Exec Bytes
  parseTemp : Bytes → Lex → Exec Bytes

/-- The directory of a file, up to the last slash. -/
def dirOf (file : Bytes) : Bytes := (file.reverse.dropWhile (· ≠ 47)).reverse

def interpret (env : Env σ) (file : Bytes) : Exec Bytes := do
  let contents := env.disk.read (cstr file)
  let dir := dirOf file
  let files := env.disk.getDir dir
  let s := (scanzz contents idoc).foldl (fun s lex => replace s lex.first []) contents
  let s := (scanzz contents ilink).foldl (fun s lex => replace s lex.first (parseLink env.router lex)) s
  let s ← (scanzz contents iform).foldlM (fun s lex => do
    let newForm ← env.parseForm lex
    return replace s lex.first newForm) s
  let s ← (scanzz contents itemp).foldlM (fun s lex => do
    let bytes ← env.parseTemp dir lex
    replaceAt s lex bytes) s
  return (scanzz contents ipart).foldl (fun s lex =>
    replace s lex.first (partialContents env.disk dir files lex)) s

end Jericho.Iris
