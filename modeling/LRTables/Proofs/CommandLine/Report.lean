import LRTables.CommandLine.Report
import LRTables.Proofs.Automaton.Items
import LRTables.Proofs.Grammar.File
import LRTables.Proofs.Table.Columns

/-!
# Reports are there

A command has something to report of the octets of its file exactly if they are those of a text that
is a grammar: nothing fails after the text has been read.

* `CommandLine.exists_product` — everything that is made of a grammar.
* `CommandLine.exists_report` — the report of a grammar.
* `CommandLine.exists_report_iff` — the files that there is a report of.
-/

namespace LRTables.CommandLine

variable {g : Grammar}

/-- **Everything that is made of a grammar is there**: its first state, which the account tells of,
and its automaton as a graph. -/
theorem exists_product (hg : g.WellFormed) :
    ∃ p s, Product.ofGrammar g = .ok p ∧ p.build.automaton.get? 0 = some s ∧
      ∀ name, ∃ graph, p.build.automaton.dot name = .ok graph := by
  obtain ⟨symbols, hsymbols, -⟩ := SymbolTable.exists_ofGrammar hg.ne_nil
  obtain ⟨_, b, -, hbuild, -, hb⟩ := Automaton.exists_build hg
  obtain ⟨s, hzero, -⟩ := hb.start
  have hmem : 0 ∈ b.automaton := OrderedMap.mem_keys_of_get? hzero
  obtain ⟨t, htable⟩ : ∃ t, ParseTable.ofAutomaton b.automaton = .ok t :=
    ⟨_, ParseTable.ofAutomaton_built hb⟩
  have hdot : ∀ name, ∃ graph, b.automaton.dot name = .ok graph := fun name => ⟨_, if_pos hmem⟩
  refine ⟨⟨g, symbols, b, t⟩, s, ?_, hzero, hdot⟩
  simp only [Product.ofGrammar, hsymbols, hbuild, htable, bind, Except.bind, pure, Except.pure]

/-- **There is a report of every grammar**, whatever the command. -/
theorem exists_report (hg : g.WellFormed) (format : Format) (command : Command) :
    ∃ r, reportGrammar g format command = .ok r := by
  obtain ⟨p, -, hp, -, hdot⟩ := exists_product hg
  obtain ⟨graph, hgraph⟩ := hdot Dot.defaultName
  cases command with
  | check => exact ⟨p.summaryReport, by rw [reportGrammar, hp]; rfl⟩
  | table => exact ⟨p.tableReport format, by rw [reportGrammar, hp]; rfl⟩
  | dot =>
    simp only [reportGrammar, hp, bind, Except.bind, Product.dotReport, hgraph, pure, Except.pure]
    exact ⟨_, rfl⟩
  | productions => exact ⟨productionsReport g, rfl⟩

/-- **The files that there is a report of** are those of texts that are grammars. -/
theorem exists_report_iff {octets : List UInt8} (format : Format) (command : Command) :
    (∃ r, report octets format command = .ok r) ↔ Grammar.IsFile octets := by
  rw [Grammar.isFile_iff]
  constructor
  · rintro ⟨r, hr⟩
    unfold report at hr
    split at hr
    · cases hr
    · rename_i g hg
      exact ⟨g, hg⟩
  · rintro ⟨g, hg⟩
    obtain ⟨text, -, hparse⟩ := Grammar.ofOctets_eq_ok_iff.1 hg
    obtain ⟨r, hr⟩ := exists_report (Grammar.wellFormed_of_parse hparse) format command
    exact ⟨r, by simp only [report, hg, hr]⟩

end LRTables.CommandLine
