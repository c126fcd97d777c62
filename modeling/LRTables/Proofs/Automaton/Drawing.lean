import LRTables.Proofs.Automaton.Items
import LRTables.Proofs.Automaton.Labels
import LRTables.Proofs.Item.Listing
import LRTables.Proofs.Order
import Mathlib.Data.List.DropRight
import Mathlib.Data.List.Forall2

/-!
# Reading graphs back

The graph of an automaton says of every state, in the order of their numbers, what its items are and
behind that where its transitions lead.  Each line is a statement with a label that is well quoted,
so that the text of every label comes back whatever the names are.  Where the names of the items are
those of a grammar, the items come back as well, and so the automaton as far as it is drawn.

* `Dot.Draws`, `Dot.exists_draws` — every automaton with a state zero is drawn.
* `Dot.readStatement?`, `Dot.read?` — what a line says, and what nodes a text describes.
* `Dot.Recovers`, `Dot.exists_recovers` — what is drawn is read back.
* `Automaton.dot_lossless` — graphs are well quoted, and those of grammars are read back.
-/

namespace LRTables

/-! ## Statements -/

namespace Dot

/-- What a line of a graph says. -/
inductive Statement where
  /-- There is a node, with items. -/
  | node (index : Nat) (items : List Item.Names)
  /-- There is an edge, with the name that is read on it. -/
  | edge (source target : Nat) (name : String)
  deriving DecidableEq, Repr

/-- What a statement is about: the words in front of the bracket. -/
def subject (line : List Char) : List (List Char) :=
  (Text.split ' ' (line.takeWhile (· ≠ '['))).filter (· ≠ [])

/-- The text of the label of a statement: what stands between the quotes. -/
def text? (line : List Char) : Option (List Char) :=
  unescape (((line.dropWhile (· ≠ '[')).drop "[ label=\"".toList.length).rdrop
    "\" ]".toList.length)

/-- What the words in front of a label say, and its text. -/
def ofWords? (text : List Char) : List (List Char) → Option Statement
  | [index] =>
    return .node (← Text.number? index) (← Item.readListing? ((Text.splitLines text).drop 2))
  | [source, _, target] =>
    return .edge (← Text.number? source) (← Text.number? target) (.ofList text)
  | _ => none

/-- What a line says. -/
def readStatement? (line : List Char) : Option Statement :=
  (text? line).bind fun text => ofWords? text (subject line)

/-- Can the word stand in what a statement is about? -/
def IsPlain (word : List Char) : Prop := word ≠ [] ∧ ' ' ∉ word ∧ '\n' ∉ word ∧ '[' ∉ word

theorem isPlain_toString (n : Nat) : IsPlain (toString n).toList := by
  have hnot : ∀ c : Char, c.isDigit = false → c ∉ (toString n).toList := by
    intro c hc hmem
    rw [Text.isDigit_of_mem_toString hmem] at hc
    exact absurd hc (by decide)
  exact ⟨(Text.solid_toString n).1, hnot ' ' rfl, hnot '\n' rfl, hnot '[' rfl⟩

theorem toList_statement (s label : String) :
    (statement s label).toList = ("    ".toList ++ s.toList ++ [' ']) ++
      ("[ label=\"".toList ++ ((escape label).toList ++ "\" ]".toList)) := by
  simp [statement]

/-- Does the text consist of plain words, with a blank between neighbours? -/
structure Consists (s : String) (words : List (List Char)) : Prop where
  /-- The words make up the text. -/
  toList_eq : s.toList = [' '].intercalate words
  /-- There is a word, -/
  ne_nil : words ≠ []
  /-- and all of them are plain. -/
  plain : ∀ word ∈ words, IsPlain word

section Consists

variable {s : String} {words : List (List Char)}

theorem Consists.not_mem (h : Consists s words) {c : Char} (hc : c ≠ ' ')
    (hwords : ∀ word ∈ words, c ∉ word) : c ∉ s.toList := by
  intro hmem
  rw [h.toList_eq] at hmem
  rcases Text.mem_intercalate hmem with hmem | ⟨word, hword, hmem⟩
  · exact hc (List.mem_singleton.1 hmem)
  · exact hwords word hword hmem

/-- The bracket of a statement is the first one on its line. -/
theorem Consists.ne_of_mem_front (h : Consists s words) :
    ∀ c ∈ "    ".toList ++ s.toList ++ [' '], decide (c ≠ '[') = true := by
  have hnot : '[' ∉ s.toList := h.not_mem (by decide) fun word hword => (h.plain word hword).2.2.2
  intro c hc
  refine decide_eq_true ?_
  rintro rfl
  simp [hnot] at hc

/-- The words of a statement are those that it is about. -/
theorem Consists.subject_statement (h : Consists s words) (label : String) :
    subject (statement s label).toList = words := by
  -- the blanks around the words are those between them and empty fields
  have hfront : "    ".toList ++ s.toList ++ [' '] =
      Text.join ' ' ([[], [], [], []] ++ words ++ [[]]) := by
    rw [Text.join_eq_intercalate, Text.intercalate_append _ (by simp) (by simp),
      Text.intercalate_append _ (by simp) h.ne_nil, h.toList_eq]
    simp [List.intercalate_cons_cons]
  have hsplit : Text.split ' ' ("    ".toList ++ s.toList ++ [' ']) =
      [[], [], [], []] ++ words ++ [[]] := by
    rw [hfront, Text.split_join (by simp)]
    intro field hfield hmem
    simp only [List.mem_append, List.mem_cons, List.not_mem_nil, or_false, or_self] at hfield
    rcases hfield with (rfl | hfield) | rfl
    · exact absurd hmem (by simp)
    · exact (h.plain field hfield).2.1 hmem
    · exact absurd hmem (by simp)
  have hfilter : words.filter (· ≠ []) = words :=
    List.filter_eq_self.2 fun word hword => decide_eq_true (h.plain word hword).1
  have htake : (statement s label).toList.takeWhile (· ≠ '[') =
      "    ".toList ++ s.toList ++ [' '] := by
    rw [toList_statement, List.takeWhile_append_of_pos h.ne_of_mem_front]
    exact List.append_nil _
  rw [subject, htake, hsplit, List.filter_append, List.filter_append, hfilter]
  exact List.append_nil _

/-- The text of its label is the one that it was given. -/
theorem Consists.text?_statement (h : Consists s words) (label : String) :
    text? (statement s label).toList = some label.toList := by
  have hdrop : (statement s label).toList.dropWhile (· ≠ '[') =
      "[ label=\"".toList ++ ((escape label).toList ++ "\" ]".toList) := by
    rw [toList_statement, List.dropWhile_append_of_pos h.ne_of_mem_front]
    rfl
  rw [text?, hdrop, List.drop_left, List.rdrop_append_length, unescape_escape]

/-- So the words and the text are read. -/
theorem Consists.readStatement?_statement (h : Consists s words) (label : String) :
    readStatement? (statement s label).toList = ofWords? label.toList words := by
  rw [readStatement?, h.text?_statement, h.subject_statement, Option.bind_some]

/-- A statement is a single line. -/
theorem Consists.feed_not_mem (h : Consists s words) (label : String) :
    '\n' ∉ (statement s label).toList := by
  have hnot : '\n' ∉ s.toList := h.not_mem (by decide) fun word hword => (h.plain word hword).2.2.1
  have hlabel := (wellQuoted_of_unescape (unescape_escape label)).1
  simp [toList_statement, hnot, hlabel]

end Consists

/-- A node is about a number, -/
theorem consists_node (index : Nat) : Consists (toString index) [(toString index).toList] where
  toList_eq := by simp
  ne_nil := by simp
  plain := fun _ hword => List.mem_singleton.1 hword ▸ isPlain_toString index

/-- and an edge about two with an arrow between them. -/
theorem consists_edge (index target : Nat) :
    Consists (toString index ++ " -> " ++ toString target)
      [(toString index).toList, "->".toList, (toString target).toList] where
  toList_eq := by simp [List.intercalate_cons_cons]
  ne_nil := by simp
  plain := by
    intro word hword
    simp only [List.mem_cons, List.not_mem_nil, or_false] at hword
    rcases hword with rfl | rfl | rfl
    · exact isPlain_toString index
    · refine ⟨?_, ?_, ?_, ?_⟩ <;> decide
    · exact isPlain_toString target

/-! ## States -/

/-- What is said about a state. -/
def statements (index : Nat) (s : State) : List Statement :=
  .node index (s.rules.map Item.names) ::
    s.transitions.map fun t => .edge index t.target t.symbol.name

section State

variable (index : Nat) {s : State}

theorem splitLines_label (s : State) : Text.splitLines (label index s).toList =
    ("[".toList ++ (toString index).toList ++ "]".toList) :: [] ::
      Text.splitLines s.listing.toList := by
  have hfeed : '\n' ∉ "[".toList ++ (toString index).toList ++ "]".toList := by
    simpa using (isPlain_toString index).2.2.1
  have hlabel : (label index s).toList = ("[".toList ++ (toString index).toList ++ "]".toList) ++
      '\n' :: ([] ++ '\n' :: s.listing.toList) := by
    simp [label]
  rw [Text.splitLines, hlabel, Text.split_append hfeed, Text.split_append List.not_mem_nil,
    Text.splitLines]

/-- **The items of a state are read back from its label.** -/
theorem readStatement?_node (h : ∀ i ∈ s.rules, i.Printable) :
    readStatement? (statement (toString index) (label index s)).toList =
      some (.node index (s.rules.map Item.names)) := by
  rw [(consists_node index).readStatement?_statement, ofWords?, splitLines_label]
  simp only [Text.number?_toString, List.drop_succ_cons, List.drop_zero, State.listing,
    Item.readListing?_listing h]
  rfl

/-- So are the name on an edge and its ends. -/
theorem readStatement?_edge (t : Transition) :
    readStatement? (edge index t).toList = some (.edge index t.target t.symbol.name) := by
  rw [edge, (consists_edge index t.target).readStatement?_statement, ofWords?]
  simp only [Text.number?_toString, String.ofList_toList]
  rfl

/-- **What is said about a state is read back.** -/
theorem mapM_node (h : ∀ i ∈ s.rules, i.Printable) :
    ((node index s).map String.toList).mapM readStatement? = some (statements index s) := by
  have hedges : (s.transitions.map (edge index)).map String.toList =
      s.transitions.map fun t => (edge index t).toList := by
    rw [List.map_map]
    rfl
  rw [node, List.map_cons, List.mapM_cons, readStatement?_node index h, hedges,
    mapM_map_eq_some fun t _ => readStatement?_edge index t]
  rfl

theorem feed_not_mem_node (s : State) : ∀ line ∈ node index s, '\n' ∉ line.toList := by
  intro line hline
  rcases List.mem_cons.1 hline with rfl | hline
  · exact (consists_node index).feed_not_mem _
  · obtain ⟨t, -, rfl⟩ := List.mem_map.1 hline
    exact (consists_edge index t.target).feed_not_mem _

end State

/-! ## Graphs -/

/-- A node as it is read: the number of its state, the items on its label and the edges behind it,
each with the name that is read and the number that is reached. -/
structure Node where
  /-- The number of the state. -/
  index : Nat
  /-- The items of the state. -/
  items : List Item.Names
  /-- Its transitions. -/
  edges : List (String × Nat)
  deriving DecidableEq, Repr

/-- The nodes with the edges behind them, and the edges that are in front of all nodes. -/
def gather : List Statement → List (String × Nat) × List Node
  | [] => ([], [])
  | .node index items :: rest => ([], ⟨index, items, (gather rest).1⟩ :: (gather rest).2)
  | .edge _ target name :: rest => ((name, target) :: (gather rest).1, (gather rest).2)

/-- The nodes of a graph: what the lines say that are behind the three headings and in front of the
closing brace. -/
def read? (text : String) : Option (List Node) :=
  (((Text.splitLines text.toList).drop 3).rdrop 2).mapM readStatement? |>.map fun statements =>
    (gather statements).2

/-- The node of a state. -/
def nodeOf (index : Nat) (s : State) : Node :=
  ⟨index, s.rules.map Item.names, s.transitions.map fun t => (t.symbol.name, t.target)⟩

theorem gather_edges (index : Nat) (ts : List Transition) (rest : List Statement) :
    gather ((ts.map fun t => .edge index t.target t.symbol.name) ++ rest) =
      ((ts.map fun t => (t.symbol.name, t.target)) ++ (gather rest).1, (gather rest).2) := by
  induction ts with
  | nil => rfl
  | cons t ts ih => rw [List.map_cons, List.cons_append, gather, ih, List.map_cons, List.cons_append]

/-- **What is said about states are their nodes**, each with its own edges. -/
theorem gather_statements (entries : List (Nat × State)) :
    gather (entries.flatMap fun e => statements e.1 e.2) =
      ([], entries.map fun e => nodeOf e.1 e.2) := by
  induction entries with
  | nil => rfl
  | cons e rest ih =>
    rw [List.flatMap_cons, statements, List.cons_append, gather, gather_edges, ih, List.append_nil]
    rfl

end Dot

namespace Automaton

/-- The states in the order of their numbers. -/
def rising (a : Automaton) : List (Nat × State) :=
  (ascending a.keys).filterMap fun k => (a.get? k).map (k, ·)

theorem mem_rising {a : Automaton} {k : Nat} {s : State} :
    (k, s) ∈ a.rising ↔ a.get? k = some s := by
  rw [rising, List.mem_filterMap]
  constructor
  · rintro ⟨j, -, h⟩
    obtain ⟨s', hs', he⟩ := Option.map_eq_some_iff.1 h
    obtain ⟨rfl, rfl⟩ := Prod.mk.inj he
    exact hs'
  · intro h
    exact ⟨k, mem_ascending.2 (OrderedMap.mem_keys_of_get? h), by rw [h]; rfl⟩

/-- Every number stands there. -/
theorem map_fst_rising (a : Automaton) : a.rising.map Prod.fst = ascending a.keys := by
  rw [rising, List.map_filterMap]
  refine (List.filterMap_eq_map_iff_forall_eq_some (g := id)).2 (fun k hk => ?_) |>.trans
    (List.map_id _)
  obtain ⟨s, hs⟩ := (a.mem_keys_iff k).1 (mem_ascending.1 hk)
  rw [hs]
  rfl

theorem pairwise_rising (a : Automaton) : (a.rising.map Prod.fst).Pairwise (· < ·) := by
  rw [a.map_fst_rising]
  exact pairwise_ascending a.keys

theorem mem_map_fst_rising (a : Automaton) (k : Nat) : k ∈ a.rising.map Prod.fst ↔ k ∈ a := by
  rw [a.map_fst_rising, mem_ascending]
  rfl

/-- The lines between the headings and the closing brace are those of the states. -/
theorem dotLines_eq (a : Automaton) (name : String) :
    a.dotLines name =
      ["digraph " ++ name ++ " \x7b", "    rankdir=\"LR\"", "    node [ shape=box ]"] ++
        (a.rising.flatMap fun e => Dot.node e.1 e.2) ++ ["\x7d"] := by
  rw [dotLines, rising, List.filterMap_eq_flatMap_toList, List.flatMap_assoc]
  congr 2
  refine List.flatMap_congr fun k _ => ?_
  cases a.get? k with
  | none => rfl
  | some s => exact (List.append_nil _).symm

/-- No line holds a line feed, if the name of the graph does not. -/
theorem feed_not_mem_dotLines (a : Automaton) {name : String} (hname : '\n' ∉ name.toList) :
    ∀ line ∈ a.dotLines name, '\n' ∉ line.toList := by
  intro line hline
  simp only [a.dotLines_eq, List.mem_append, List.mem_cons, List.not_mem_nil, or_false,
    List.mem_flatMap] at hline
  rcases hline with ((rfl | rfl | rfl) | ⟨e, -, hline⟩) | rfl
  · simpa using hname
  · decide
  · decide
  · exact Dot.feed_not_mem_node e.1 e.2 line hline
  · decide

end Automaton

namespace Dot

/-! ## What is drawn -/

/-- Are the lines those of a state: its node, and an edge for each transition? -/
def DrawsState (index : Nat) (s : State) (lines : List String) : Prop :=
  ∃ node edges, lines = node :: edges ∧
    Labelled (toString index) ("[" ++ toString index ++ "]\n\n" ++ s.listing) node ∧
    List.Forall₂ (fun t => Labelled (toString index ++ " -> " ++ toString t.target) t.symbol.name)
      s.transitions edges

/-- **Is the text a graph of the automaton, with well-quoted labels?** -/
structure Draws (a : Automaton) (name text : String) (indices : List Nat)
    (blocks : List (List String)) : Prop where
  /-- The text consists of the headings, the lines of the states and a closing brace. -/
  text_eq : text = Text.unlines
    (["digraph " ++ name ++ " \x7b", "    rankdir=\"LR\"", "    node [ shape=box ]"] ++
      blocks.flatten ++ ["\x7d"])
  /-- The numbers of the states rise, -/
  rise : indices.Pairwise (· < ·)
  /-- and they are those of the automaton. -/
  mem_indices : ∀ k, k ∈ indices ↔ k ∈ a
  /-- Each state has its lines. -/
  states : List.Forall₂ (fun k lines => ∃ s, a.get? k = some s ∧ DrawsState k s lines)
    indices blocks

/-- **Do the nodes hold what is in the automaton?** -/
structure Recovers (a : Automaton) (nodes : List Node) : Prop where
  /-- The numbers of the states rise, -/
  rise : (nodes.map Node.index).Pairwise (· < ·)
  /-- and they are those of the automaton. -/
  mem_indices : ∀ k, k ∈ nodes.map Node.index ↔ k ∈ a
  /-- A node has the items of its state and the transitions of it, in their order. -/
  nodes : ∀ node ∈ nodes, ∃ s, a.get? node.index = some s ∧
    node.items = s.rules.map Item.names ∧
    node.edges = s.transitions.map fun t => (t.symbol.name, t.target)

theorem drawsState_node (index : Nat) (s : State) : DrawsState index s (node index s) := by
  refine ⟨_, _, rfl, labelled_statement _ _, ?_⟩
  rw [List.forall₂_map_right_iff, List.forall₂_same]
  exact fun t _ => labelled_statement _ _

variable {a : Automaton}

/-- **Every automaton with a state zero is drawn**, whatever its names are. -/
theorem exists_draws (h : 0 ∈ a) (name : String) :
    ∃ text indices blocks, a.dot name = .ok text ∧ Draws a name text indices blocks := by
  refine ⟨_, a.rising.map Prod.fst, a.rising.map fun e => node e.1 e.2, if_pos h, ?_,
    a.pairwise_rising, a.mem_map_fst_rising, ?_⟩
  · rw [a.dotLines_eq, List.flatMap_def]
  · rw [List.forall₂_map_left_iff, List.forall₂_map_right_iff, List.forall₂_same]
    exact fun e he => ⟨e.2, Automaton.mem_rising.1 he, drawsState_node e.1 e.2⟩

/-! ## What is read back -/

/-- **An automaton is read back from its graph** if its items are printable and the name of the graph
is on one line. -/
theorem exists_recovers (h : 0 ∈ a) (hitems : ∀ k s, a.get? k = some s → ∀ i ∈ s.rules, i.Printable)
    {name : String} (hname : '\n' ∉ name.toList) :
    ∃ text nodes, a.dot name = .ok text ∧ read? text = some nodes ∧ Recovers a nodes := by
  have hlines : ((Text.splitLines (Text.unlines (a.dotLines name)).toList).drop 3).rdrop 2 =
      a.rising.flatMap fun e => (node e.1 e.2).map String.toList := by
    rw [Text.splitLines_unlines (a.feed_not_mem_dotLines hname), a.dotLines_eq, List.map_append,
      List.map_append, List.map_flatMap, List.append_assoc, List.append_assoc]
    change ((a.rising.flatMap fun e => (node e.1 e.2).map String.toList) ++
      ["\x7d".toList, []]).rdrop ["\x7d".toList, []].length = _
    exact List.rdrop_append_length
  have hread : (a.rising.flatMap fun e => (node e.1 e.2).map String.toList).mapM readStatement? =
      some (a.rising.flatMap fun e => statements e.1 e.2) :=
    mapM_flatMap_eq_some fun e he => mapM_node e.1 (hitems e.1 e.2 (Automaton.mem_rising.1 he))
  have hindices : (a.rising.map fun e => nodeOf e.1 e.2).map Node.index = a.rising.map Prod.fst := by
    rw [List.map_map]
    rfl
  refine ⟨_, a.rising.map fun e => nodeOf e.1 e.2, if_pos h, ?_, ?_, ?_, fun n hn => ?_⟩
  · rw [read?, hlines, hread, Option.map_some, gather_statements]
  · rw [hindices]
    exact a.pairwise_rising
  · rw [hindices]
    exact a.mem_map_fst_rising
  · obtain ⟨e, he, rfl⟩ := List.mem_map.1 hn
    exact ⟨e.2, Automaton.mem_rising.1 he, rfl, rfl⟩

/-- A state and its transition, read from their lines. -/
example : read? (Text.unlines ["digraph G \x7b", "    rankdir=\"LR\"", "    node [ shape=box ]",
    "    3 [ label=\"[3]\\n\\ns ---> A . b    $\" ]", "    3 -> 5 [ label=\"b\" ]", "\x7d"]) =
      some [⟨3, [⟨"s", ["A", "b"], 1, "$"⟩], [("b", 5)]⟩] := by decide +kernel

end Dot

namespace Automaton

/-- The items of a grammar's automaton can be told apart on its graph. -/
theorem Built.printable {g : Grammar} {first : FirstSets} {a : Automaton} (hb : a.Built g first)
    (hg : g.WellFormed) (hf : first.Exact g) {k : Nat} {i : Item} (hi : i ∈ a.rulesOf k) :
    i.Printable := by
  obtain ⟨γ, hv⟩ := hb.viable k i hi
  obtain ⟨p, hp, hlhs, hrhs⟩ := hv.isOf
  obtain ⟨hleft, hright⟩ := hg.solid_of_mem_augmented hp
  refine ⟨hlhs ▸ hleft, by rwa [Item.rhsNames, hrhs], ?_, hv.dot_le (Expansion.seed_dot_le g)⟩
  rcases hv.look_mem hg hf with hend | hterminal
  · rw [hend]
    exact Grammar.solid_endMarker
  · exact hg.solid_terminal hterminal

/-- **Graphs are well quoted, and those of grammars are read back.**  Whatever the names in an
automaton are, between the quotes of a label stand no line feed and no double quote that would end
it, and without the escapes the label is the number of the state and its listing, or the name that
the transition reads.  For the grammar of a text the graph alone tells the numbers of the states, the
items of each in their order, and its transitions in theirs. -/
theorem dot_lossless :
    (∀ (a : Automaton) (name : String), 0 ∈ a →
      ∃ text indices blocks, a.dot name = .ok text ∧ Dot.Draws a name text indices blocks) ∧
    ∀ (text : String) (g : Grammar), Grammar.parse text = .ok g →
      ∃ a graph nodes, ofGrammar g = .ok a ∧ a.dot Dot.defaultName = .ok graph ∧
        Dot.read? graph = some nodes ∧ Dot.Recovers a nodes := by
  refine ⟨fun a name h => Dot.exists_draws h name, fun text g h => ?_⟩
  have hg := Grammar.wellFormed_of_parse h
  obtain ⟨first, a, hf, ha, hb⟩ := exists_ofGrammar hg
  obtain ⟨s, hs, -⟩ := hb.start
  have hname : '\n' ∉ Dot.defaultName.toList := by decide
  have hitems : ∀ k s, a.get? k = some s → ∀ i ∈ s.rules, i.Printable := fun k s hs i hi =>
    hb.printable hg hf (by rwa [mem_rulesOf_of_get? hs])
  obtain ⟨graph, nodes, hdot, hread, hrecovers⟩ :=
    Dot.exists_recovers (OrderedMap.mem_keys_of_get? hs) hitems hname
  exact ⟨a, graph, nodes, ha, hdot, hread, hrecovers⟩

/-- An automaton with names that are hard to quote, its states not in the order of their numbers. -/
def awkward : Automaton := .ofList [
  (2, ⟨[], [⟨.terminal "\\\"\n", 0⟩]⟩),
  (0, ⟨[⟨"\\n", [.terminal "\""], 3, "\n"⟩], [⟨.nonterminal "\\", 2⟩]⟩)]

/-- The lines of its graph. -/
def awkwardLines : List String := [
  "digraph G \x7b",
  "    rankdir=\"LR\"",
  "    node [ shape=box ]",
  "    0 [ label=\"[0]\\n\\n\\\\n ---> \\\" .\" ]",
  "    0 -> 2 [ label=\"\\\\\" ]",
  "    2 [ label=\"[2]\\n\\n\" ]",
  "    2 -> 0 [ label=\"\\\\\\\"\\n\" ]",
  "\x7d"]

/-- The graph of these states, and what is read from that of a small grammar. -/
theorem dot_lossless_of_awkward :
    (∃ indices blocks, Dot.Draws awkward "G" (Text.unlines awkwardLines) indices blocks) ∧
    ∃ g a graph nodes, Grammar.parse "state ---> state A | *" = .ok g ∧ ofGrammar g = .ok a ∧
      a.dot Dot.defaultName = .ok graph ∧ Dot.read? graph = some nodes ∧ Dot.Recovers a nodes ∧
      a.keys = [0, 1, 3, 6] := by
  constructor
  · obtain ⟨text, indices, blocks, hdot, hdraws⟩ := dot_lossless.1 awkward "G" (by decide)
    have hgraph : awkward.dot "G" = .ok (Text.unlines awkwardLines) := by decide +kernel
    obtain rfl := Except.ok.inj (hdot.symm.trans hgraph)
    exact ⟨indices, blocks, hdraws⟩
  · obtain ⟨g, hparse, hg⟩ := exists_ok_of_any (e := Grammar.parse "state ---> state A | *")
      (P := fun g : Grammar => (ofGrammar g).toOption.any fun a : Automaton =>
        decide (a.keys = [0, 1, 3, 6])) (by decide +kernel)
    obtain ⟨a, graph, nodes, ha, hdot, hread, hrecovers⟩ := dot_lossless.2 _ g hparse
    rw [ha] at hg
    exact ⟨g, a, graph, nodes, hparse, ha, hdot, hread, hrecovers, of_decide_eq_true hg⟩

end Automaton

end LRTables
