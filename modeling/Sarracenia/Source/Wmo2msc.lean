import Mathlib.Logic.Function.Basic
import Sarracenia.Source.FileInfo
import Sarracenia.Source.Wmo00

/-!
# Bulletins of the MSC (`sarracenia/flowcb/filter/wmo2msc.py`)

The sums, what the clock and chance add to a name, and whether a link can be made are given from outside; the log is left
out.
-/
namespace Sarracenia.Source.Wmo2msc
open Library Library.Text Library.Dynamic
open Source.Transfer (Bytes)
open Source.Wmo00 (Files ascii decode)
open Source.FileInfo (dirname)

structure Options where
  filter_wmo2msc_uniquify : Str
  filter_olddir : Str
  filter_newdir : Str
  filter_wmo2msc_treeify : Bool
  filter_wmo2msc_convert : Bool
  baseDir : Str
  post_baseDir : Str
  currentDir : Str

structure Message where
  baseUrl : Str
  relPath : Str
  identity : Str
  size : Nat
  savedUrl : Option Str
  saved_baseUrl : Option Str

def newline : UInt8 := 10
def CR : UInt8 := 13
def blank : UInt8 := 32

/-! ## The text -/

/-- Every `oldchar` is replaced. -/
def replaceChar (oldchar : UInt8) (newchar bintxt : Bytes) : Bytes := bintxt.flatMap fun c => if c = oldchar then newchar else [c]

/-- `bintxt.replace(b'\r', b'', n)` -/
def removeReturns : Nat → Bytes → Bytes
  | 0, bintxt => bintxt
  | _, [] => []
  | n + 1, c :: bintxt => if c = CR then removeReturns n bintxt else c :: removeReturns (n + 1) bintxt

/-- `trimre.sub(b'\n', bintxt)` for ` +\n`: the blanks of a run that a newline ends. -/
def trim : Bytes → Bytes
  | [] => []
  | c :: bintxt =>
    if c = blank ∧ (bintxt.dropWhile (· = blank)).head? = some newline then trim bintxt else c :: trim bintxt

/-- For which bulletins a character is replaced: those with a `TT`, or a `TTAA`, out of a list, or all. -/
inductive Headings where
  | ahl2 (list : List String)
  | ahl4 (list : List String)
  | every

structure Replacement where
  headings : Headings
  oldchar : UInt8
  newchar : Bytes

/-- In the order in which they are made. -/
def replacements : List Replacement := [
  ⟨.ahl2 ["SD", "SO", "WS", "SR", "SX", "FO", "WA", "AC", "FA", "FB", "FD"], 0x1e, []⟩,
  ⟨.ahl2 ["SR", "SX"], 0x7e, [newline]⟩,
  ⟨.ahl2 ["UK"], 0x01, []⟩,
  ⟨.ahl4 ["SICO"], 0x01, []⟩,
  ⟨.ahl2 ["SO", "SR"], 0x02, []⟩,
  ⟨.ahl2 ["SX", "SR", "SO"], 0x00, []⟩,
  ⟨.ahl2 ["SX"], 0x11, []⟩,
  ⟨.ahl2 ["SX"], 0x14, []⟩,
  ⟨.ahl2 ["SX"], 0x19, []⟩,
  ⟨.ahl2 ["SX"], 0x1f, []⟩,
  ⟨.ahl2 ["SR"], 0x08, []⟩,
  ⟨.ahl2 ["SR"], 0x09, []⟩,
  ⟨.ahl2 ["SR"], 0x1a, []⟩,
  ⟨.ahl2 ["SR"], 0x1b, []⟩,
  ⟨.ahl2 ["SR"], 0x12, []⟩,
  ⟨.ahl2 ["FX"], 0x10, []⟩,
  ⟨.ahl2 ["FX"], 0xf1, []⟩,
  ⟨.ahl2 ["WW"], 0xba, []⟩,
  ⟨.ahl2 ["US"], 0x18, []⟩,
  ⟨.ahl4 ["SXUS", "SXCN", "SRCN"], 0x7f, [0x3f]⟩,
  ⟨.ahl4 ["SRCN"], 0x0e, []⟩,
  ⟨.ahl4 ["SRCN"], 0x11, []⟩,
  ⟨.ahl4 ["SRCN"], 0x16, []⟩,
  ⟨.ahl4 ["SRCN"], 0x19, []⟩,
  ⟨.ahl4 ["SRCN"], 0x1d, []⟩,
  ⟨.ahl4 ["SRCN"], 0x1f, []⟩,
  ⟨.ahl4 ["SXVX", "SRUS", "SRMT"], 0x7f, []⟩,
  ⟨.every, CR, []⟩,
  ⟨.ahl2 ["SA", "SM", "SI", "SO", "UJ", "US", "FT"], 0x03, []⟩]

def Headings.has (line : Str) : Headings → Bool
  | .ahl2 list => (list.map String.toList).contains (line.take 2)
  | .ahl4 list => (list.map String.toList).contains (line.take 4)
  | .every => true

/-- Those for a first line. -/
def made (line : Str) : List Replacement := replacements.filter (·.headings.has line)

def doSpecificProcessing (line : Str) (bintxt : Bytes) : Bytes :=
  trim ((made line).foldl (fun bintxt r => replaceChar r.oldchar r.newchar bintxt) bintxt)

/-! ## The file -/

/-- With its newline, where there is one. -/
def readline (bintxt : Bytes) : Bytes :=
  bintxt.takeWhile (· ≠ newline) ++ (bintxt.dropWhile (· ≠ newline)).take 1

def isWhite (c : UInt8) : Bool := c = 32 || (9 ≤ c && c ≤ 13)

def strip (b : Bytes) : Bytes := rstripBy isWhite (b.dropWhile isWhite)

/-- `bytes == str`: nothing is both. -/
def equals (_ : Bytes) (_ : Str) : Bool := false

/-- What is written for a file, by its first line and the four bytes behind it. -/
def transformed (o : Options) (line body bintxt : Bytes) : Bytes :=
  if [['B', 'U', 'F', 'R'], ['G', 'R', 'I', 'B'], [Char.ofNat 0x89, 'P', 'N', 'G']].any (equals ((body.dropWhile isWhite).take 4)) then
    replaceChar CR [] bintxt
  else if ["SFUK45 EGRR".toList].any (equals (line.take 11)) then removeReturns 2 bintxt
  else if o.filter_wmo2msc_convert then doSpecificProcessing (decode line) bintxt
  else bintxt

section Work
variable (o : Options) (md5 computeIdentity : Bytes → Str) (stamp : Message → Str) (links : Str → Str → Bool)

/-- `str.replace`; an empty text is between all characters. -/
def replace (old new s : Str) : Str := if old = [] then new ++ s.flatMap (fun c => c :: new) else replaceAll old new s

/-- `os.path.join` -/
def joined (d name : Str) : Str :=
  if name.head? = some '/' || d = [] then name else if d.getLast? = some '/' then d ++ name else d ++ '/' :: name

/-- Where the message says that the file is, if it is a local one. -/
def input_file (message : Message) : Option Str :=
  if message.baseUrl = "file:".toList then some message.relPath
  else if o.baseDir ≠ [] then some (joined o.baseDir message.relPath)
  else none

def AHLfn (line : Bytes) : Bytes := strip (line.map fun c => if c = blank then 95 else c)

/-- The name, with what makes it unique. -/
def unique (message : Message) (line bintxt : Bytes) : Str :=
  if o.filter_wmo2msc_uniquify = "time".toList then decode (AHLfn line) ++ '_' :: stamp message
  else if o.filter_wmo2msc_uniquify = "hash".toList then decode (AHLfn line) ++ '_' :: md5 bintxt
  else decode (AHLfn line)

def output_file (path : Str) (line : Bytes) (name : Str) : Str :=
  if o.filter_wmo2msc_treeify then
    replace o.filter_olddir o.filter_newdir (dirname path) ++ '/' :: slice (decode line) 0 2 ++ '/' :: slice (decode line) 7 11 ++
      '/' :: slice (decode line) 14 16 ++ '/' :: name
  else o.currentDir ++ '/' :: name

/-- What a file is converted to: where it is put, the files then, and the message. -/
structure Converted where
  output_file : Str
  files : Files
  message : Message

/-- One file. Nothing if it is rejected; it is linked, if it is not converted and that can be done. -/
def convert (files : Files) (message : Message) (path : Str) (input : Bytes) : Except Fault (Option Converted) :=
  let line := readline input
  if ascii (AHLfn line) then
    if (AHLfn line).length < 18 then .ok none
    else
      let bintxt := transformed o line ((input.drop line.length).take 4) input
      let out := output_file o path line (unique o md5 stamp message line bintxt)
      let content := if !o.filter_wmo2msc_convert && links path out then input else bintxt
      .ok (some {
        output_file := out
        files := Function.update files out (some content)
        message := { message with identity := computeIdentity bintxt, size := bintxt.length } })
  else .error .valueError

/-- How the file is announced. -/
def announced (output_file : Str) (message : Message) : Except Fault Message :=
  let relPath := if o.post_baseDir ≠ [] then replace o.post_baseDir [] output_file
    else if o.baseDir ≠ [] then replace o.baseDir [] output_file
    else output_file
  match relPath with
  | [] => .error .indexError
  | c :: rest =>
    let relPath := if c = '/' then rest else c :: rest
    .ok { message with
      relPath := replaceAll ['/', '/'] ['/'] relPath
      baseUrl := message.saved_baseUrl.getD (message.savedUrl.getD message.baseUrl) }

structure Worklist where
  files : Files
  rejected : List Message
  new_ok : List Message

def one (w : Worklist) (message : Message) : Except Fault Worklist :=
  match input_file o message with
  | none => .ok { w with rejected := w.rejected ++ [message] }
  | some path =>
    match w.files path with
    | none => .ok { w with rejected := w.rejected ++ [message] }
    | some input => do
      match ← convert o md5 computeIdentity stamp links w.files message path input with
      | none => .ok { w with rejected := w.rejected ++ [message] }
      | some converted =>
        let message ← announced o converted.output_file converted.message
        .ok { w with files := converted.files, new_ok := w.new_ok ++ [message] }

/-- `Wmo2msc.after_work`, of the messages on `worklist.ok`. -/
def after_work (files : Files) (rejected ok : List Message) : Except Fault Worklist :=
  ok.foldlM (one o md5 computeIdentity stamp links) ⟨files, rejected, []⟩

end Work
end Sarracenia.Source.Wmo2msc
