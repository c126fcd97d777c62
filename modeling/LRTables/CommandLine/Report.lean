import LRTables.Automaton.Build
import LRTables.Automaton.Dot
import LRTables.CommandLine.Command
import LRTables.CommandLine.Disk
import LRTables.Grammar.File
import LRTables.Table.Grid

/-!
# What a command has to say

A command works on the octets of its file.  If they are a grammar, it has a document
or a summary to show, and an account of how it came about, which is shown on request.

* `Product` — everything that is made of a grammar.
* `report` — what a command shows.
* `Failure` — why it shows nothing.
-/

namespace LRTables.CommandLine

/-! ## Failures -/

/-- Why a command fails. -/
inductive Failure where
  /-- The file or the path to write to cannot be used. -/
  | system (e : SystemError)
  /-- The file is no grammar. -/
  | file (e : Grammar.FileError)
  /-- The construction misses something. -/
  | construction (e : Fault)
  deriving DecidableEq, Repr

/-- The name of the kind of a fault. -/
def faultKind : Fault → String
  | .undefinedNonterminal _ => "KeyError"
  | .missingState _ => "KeyError"
  | .noProductions => "IndexError"
  | .noItems => "IndexError"
  | .noStartState => "ValueError"

/-- The lines about a failure. -/
def Failure.lines : Failure → List String
  | .system e => ["[ERROR] " ++ e.kind ++ " " ++ e.message]
  | .file (.encoding e) => ["[ERROR] UnicodeDecodeError " ++ e.message]
  | .file (.text e) => ["[SYNTAX ERROR]", e.message]
  | .construction e => ["[ERROR] " ++ faultKind e ++ " " ++ e.message]

/-! ## Products -/

/-- A grammar and what is made of it. -/
structure Product where
  /-- The grammar. -/
  grammar : Grammar
  /-- Its symbols. -/
  symbols : SymbolTable
  /-- Its automaton, and how it came about. -/
  build : Build
  /-- Its parse table. -/
  table : ParseTable
  deriving Repr

/-- Everything that is made of a grammar. -/
def Product.ofGrammar (g : Grammar) : Except Fault Product := do
  let symbols ← SymbolTable.ofGrammar g
  let build ← Automaton.build g
  let table ← ParseTable.ofAutomaton build.automaton
  return ⟨g, symbols, build, table⟩

/-- The account of the construction. -/
def Product.log (p : Product) : List String :=
  ("[DEBUG] grammar ready | prods=" ++ toString p.grammar.length ++ " start=" ++
      p.symbols.start.getD "") ::
    p.build.log ++
    ["[DEBUG] parse table built | rows=" ++ toString p.table.rows.size ++ " accept=" ++
      toString p.table.acceptCount]

/-- The symbols and productions of the grammar, line by line. -/
def Product.grammarLines (p : Product) : List String :=
  ["", "[Grammar]", "Start: " ++ p.symbols.start.getD "",
    "Terminals:", "  " ++ ", ".intercalate p.symbols.terminals,
    "Nonterminals:", "  " ++ ", ".intercalate p.symbols.nonterminals,
    "Productions: " ++ toString p.grammar.length] ++
    p.grammar.map ("  " ++ ·.toText)

/-- The items of the first state, line by line. -/
def Product.startLines (p : Product) : List String :=
  let items := ((p.build.automaton.get? 0).map State.rules).getD []
  ["", "[State 0 items]"] ++ items.map ("  " ++ ·.toText)

/-- How many states, productions and accepting cells there are. -/
def Product.summary (p : Product) : String :=
  "[CHECK OK] states=" ++ toString p.build.automaton.size ++ " prods=" ++
    toString p.grammar.length ++ " accept=" ++ toString p.table.acceptCount

/-- A symbol as an object. -/
def symbolJson (x : Symbol) : Json.Value :=
  .object [("name", .string x.name), ("isTerminal", .bool x.isTerminal)]

/-- A production as an object. -/
def productionJson (p : Production) : Json.Value :=
  .object [("leftHandSide", symbolJson (.nonterminal p.lhs)),
    ("rightHandSide", .array (p.rhs.map symbolJson)),
    ("lineNum", match p.line with
      | none => .null
      | some n => .number n)]

/-! ## Reports -/

/-- What a command shows. -/
inductive Showing where
  /-- A line. -/
  | summary (line : String)
  /-- A document, with a label for the line that says where it was written. -/
  | document (label text : String)
  deriving DecidableEq, Repr

/-- What a command shows, and the account of how it came about. -/
structure Report where
  /-- The account, line by line. -/
  log : List String
  /-- What is shown. -/
  showing : Showing
  deriving DecidableEq, Repr

/-- The summary of a product. -/
def Product.summaryReport (p : Product) : Report :=
  ⟨p.log ++ p.grammarLines ++ p.startLines, .summary p.summary⟩

/-- The parse table in one of its forms. -/
def Product.tableReport (p : Product) (format : Format) : Report :=
  let text := match format with
    | .json => p.table.toJson.render
    | .text => p.table.grid p.symbols
  ⟨p.log, .document ("table format=" ++ format.name) text⟩

/-- The automaton as a graph. -/
def Product.dotReport (p : Product) : Except Fault Report := do
  let text ← p.build.automaton.dot Dot.defaultName
  let size := "[DEBUG] dot nodes=" ++ toString p.build.automaton.size ++ " bytes=" ++
    toString text.length
  return ⟨p.log ++ [size], .document "dot" text⟩

/-- The productions of a grammar, of which nothing else needs to be made. -/
def productionsReport (g : Grammar) : Report :=
  ⟨[], .document "productions" (Json.Value.array (g.map productionJson)).render⟩

/-- What a command shows of a grammar. -/
def reportGrammar (g : Grammar) (format : Format) : Command → Except Fault Report
  | .check => Product.summaryReport <$> Product.ofGrammar g
  | .table => do return (← Product.ofGrammar g).tableReport format
  | .dot => do (← Product.ofGrammar g).dotReport
  | .productions => .ok (productionsReport g)

/-- What a command shows of the octets of its file. -/
def report (octets : List UInt8) (format : Format) (command : Command) : Except Failure Report :=
  match Grammar.ofOctets octets with
  | .error e => .error (.file e)
  | .ok g =>
    match reportGrammar g format command with
    | .error e => .error (.construction e)
    | .ok r => .ok r

end LRTables.CommandLine
