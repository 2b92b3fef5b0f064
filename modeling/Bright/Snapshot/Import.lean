import Bright.Name.StringToName

/-!
# The snapshot import

The tool reads the lines of a snapshot into a map keyed by address, collects
the text and the number of the lines that it rejects, and then issues two
commands for each entry of the map.

The tokenizer is the parameter `tokenize`; `none` is an exception, which
nothing catches.  The console output is left out, but for the sum of the
quantities in `Bright.Snapshot.Totals`.

On its last path `parse` ends without a `return`, which is undefined behaviour
of a function with a result.  Here it returns like any other call.  `main` tests
the result and goes on to the next line in both cases, so it is left out.
-/

namespace Bright.Snapshot

open Bright.Lib
open Bright.Eosio (StdString)
open Bright.Name (cString)

structure Stuser where
  account : StdString
  pubkey : StdString
  quantity : StdString
  deriving DecidableEq, Repr

/-- The entries of `g_mapuser`, each with its address. -/
abbrev Mapuser := Table fun entry : StdString × Stuser => entry.1

/-- The lines in `seterr`. -/
abbrev Setusererror := Table fun strline : StdString => strline

/-- The global variables of the tool. -/
structure Globals where
  gFailload : UInt64
  gFailitem : List UInt64
  gMapuser : Mapuser
  seterr : Setusererror
  deriving DecidableEq

def Globals.initial : Globals where
  gFailload := 0
  gFailitem := []
  gMapuser := Table.empty
  seterr := Table.empty

/-! ### Reading one line -/

/-- The local variables of `parse`. -/
structure Reading where
  ulordaddr : StdString
  usr : Stuser
  calfiled : Int8
  deriving DecidableEq, Repr

def Reading.start : Reading where
  ulordaddr := []
  usr := ⟨[], [], []⟩
  calfiled := 1

/-- Turn the first carriage return into a space. -/
def replaceReturn : StdString → StdString
  | [] => []
  | c :: rest =>
      if c = '\r'.toUInt8 then ' '.toUInt8 :: rest else c :: replaceReturn rest

/-- One turn of the loop of `parse` over the fields. -/
def readField (reading : Reading) (token : StdString) : Reading :=
  let usr := reading.usr
  let stored :=
    if reading.calfiled = 1 then
      { reading with ulordaddr := token }
    else if reading.calfiled = 2 then
      { reading with usr := { usr with account := token } }
    else if reading.calfiled = 3 then
      { reading with usr := { usr with pubkey := token } }
    else if reading.calfiled = 4 then
      { reading with usr := { usr with quantity := replaceReturn token } }
    else
      reading
  { stored with calfiled := reading.calfiled + 1 }

def checkinfo (_ulordaddr : StdString) (usr : Stuser) (globals : Globals) :
    Bool × Globals :=
  let gFailload := globals.gFailload + 1
  if usr.account.length < 12 then
    (false,
      { globals with
        gFailload := gFailload
        gFailitem := globals.gFailitem ++ [gFailload] })
  else
    (true, { globals with gFailload := gFailload })

section Tokenizer

variable (tokenize : StdString → Option (List StdString))

def parse (strline : StdString) (globals : Globals) : Option Globals :=
  if strline.isEmpty then
    some globals
  else
    match tokenize strline with
    | none => none
    | some tokens =>
        let reading := tokens.foldl readField Reading.start
        match checkinfo reading.ulordaddr reading.usr globals with
        | (true, checked) =>
            some { checked with
              gMapuser := checked.gMapuser.put (reading.ulordaddr, reading.usr) }
        | (false, checked) =>
            some { checked with seterr := checked.seterr.put strline }

/-- The loop of `main` over the lines of the file. -/
def load : List StdString → Globals → Option Globals
  | [], globals => some globals
  | strline :: rest, globals =>
      match parse tokenize strline globals with
      | none => none
      | some after => load rest after

end Tokenizer

/-! ### The commands -/

def log : StdString := "  >> info.log ".toUTF8.toList

def head : StdString :=
  "cleos --wallet-url http://127.0.0.1:8901 --url http://10.186.11.141:8888 ".toUTF8.toList

def create : StdString :=
  " system newaccount --transfer eosio ".toUTF8.toList

def strtail : StdString :=
  " --stake-net \"200.0000 UOS\" --stake-cpu \"200.0000 UOS\" --buy-ram \"200.0000 UOS\"".toUTF8.toList

def transfer : StdString := " transfer eosio ".toUTF8.toList

/-- The two strings that `run` passes to `system` for one entry. -/
def commands (usr : Stuser) : List StdString :=
  [cString (head ++ create ++ usr.account ++ " ".toUTF8.toList ++ usr.pubkey ++
      strtail ++ log),
    cString (head ++ transfer ++ usr.account ++ " \"".toUTF8.toList ++
      usr.quantity ++ " UOS \"".toUTF8.toList)]

def run (gMapuser : Mapuser) : List StdString :=
  gMapuser.rows.flatMap fun entry => commands entry.2

end Bright.Snapshot
