import LRTables.CommandLine.Run
import LRTables.Proofs.CommandLine.Disk
import LRTables.Proofs.CommandLine.Report
import LRTables.Proofs.CommandLine.Request

/-!
# What comes of a command line

A run fails before anything is printed or written, or it goes through.  What goes to a file is what
would have been printed, and an account of the construction changes nothing but the account.

* `Disk.carryOut_congr` — plans that differ in their accounts alone.
* `Disk.Obeys` — what a run does that a command line asks for.
* `Disk.obeys_of_read` — every run does it.
-/

namespace LRTables.CommandLine

/-! ## Reports -/

/-- A text with a line feed at its end is the text or has one character more. -/
theorem endLine_eq (text : String) : endLine text = text ∨ endLine text = text ++ "\n" := by
  unfold endLine
  split
  · exact .inl rfl
  · exact .inr rfl

/-- A command that can write to a file has a document to show. -/
theorem exists_document {octets : List UInt8} {format : Format} {command : Command} {r : Report}
    (h : report octets format command = .ok r) (houtput : .output ∈ command.flags) :
    ∃ label text, r.showing = .document label text := by
  unfold report at h
  split at h
  · cases h
  · rename_i g _
    split at h
    · cases h
    · rename_i r' hr
      cases h
      cases command with
      | check => exact absurd houtput (by decide)
      | table =>
        obtain ⟨p, -, rfl⟩ := map_eq_ok_iff.1 hr
        exact ⟨_, _, rfl⟩
      | dot =>
        obtain ⟨p, -, hdot⟩ := bind_eq_ok_iff.1 hr
        obtain ⟨text, -, hreport⟩ := bind_eq_ok_iff.1 hdot
        cases hreport
        exact ⟨_, _, rfl⟩
      | productions =>
        cases hr
        exact ⟨_, _, rfl⟩

/-- Without a path to write to, whatever is shown is printed. -/
theorem exists_print (s : Showing) {output : Option String}
    (houtput : output = none ∨ output = some "") : ∃ text, s.step output = .print text := by
  cases s with
  | summary line => exact ⟨_, rfl⟩
  | document label text =>
    rcases houtput with rfl | rfl
    · exact ⟨_, rfl⟩
    · exact ⟨_, rfl⟩

namespace Disk

variable {d d' : Disk} {a : Arguments} {octets : List UInt8} {r : Report} {text : String}

/-! ## Plans that are carried out -/

/-- **Plans that differ in their accounts alone** end in the same way, print the same and leave the
same disk. -/
theorem carryOut_congr (d : Disk) {p q : Plan} (h : p.step = q.step) :
    (d.carryOut p).1.code = (d.carryOut q).1.code ∧
      (d.carryOut p).1.stdout = (d.carryOut q).1.stdout ∧ (d.carryOut p).2 = (d.carryOut q).2 := by
  obtain ⟨log, step⟩ := p
  obtain ⟨log', step'⟩ := q
  obtain rfl : step = step' := h
  cases step with
  | fail e => exact ⟨rfl, rfl, rfl⟩
  | print text => exact ⟨rfl, rfl, rfl⟩
  | write path label text =>
    simp only [carryOut, Plan.outcome]
    cases (d.save path text).2 <;> simp

/-- What there is to do does not depend on whether an account is asked for. -/
theorem step_plan_debug (a : Arguments) (content : Except SystemError (List UInt8)) (debug : Bool) :
    (plan { a with debug := debug } content).step = (plan a content).step := by
  unfold plan
  split
  · rfl
  · simp only
    split <;> rfl

theorem execute_of_report_error {e : Failure} (hread : d.read (.ofText a.file) = .ok octets)
    (hreport : report octets a.format a.command = .error e) :
    d.execute a = (⟨failureCode, "", Text.unlines e.lines⟩, d) := by
  simp [execute, plan, hread, hreport, carryOut, Plan.outcome]

theorem execute_of_print (hread : d.read (.ofText a.file) = .ok octets)
    (hreport : report octets a.format a.command = .ok r)
    (hstep : r.showing.step a.output = .print text) :
    (d.execute a).1.code = 0 ∧ (d.execute a).1.stdout = text ∧ (d.execute a).2 = d := by
  simp [execute, plan, hread, hreport, carryOut, Plan.outcome, hstep]

theorem execute_of_write {path : Path} {label : String}
    (hread : d.read (.ofText a.file) = .ok octets)
    (hreport : report octets a.format a.command = .ok r)
    (hstep : r.showing.step a.output = .write path label text)
    (hsave : d.save path text = (d', .ok ())) :
    (d.execute a).1.code = 0 ∧ (d.execute a).2 = d' := by
  simp [execute, plan, hread, hreport, carryOut, Plan.outcome, hstep, hsave]

/-! ## Runs -/

section Runs

variable {arguments : List String}

theorem run_of_read (h : Request.read arguments = .run a) : d.run arguments = d.execute a := by
  rw [run, h]

/-- A run that reads no grammar. -/
theorem run_rejected (h : Request.read arguments = .run a)
    (hread : d.read (.ofText a.file) = .ok octets) (hfile : ¬ Grammar.IsFile octets) :
    (d.run arguments).1.code = 2 ∧ (d.run arguments).1.stdout = "" ∧
      (d.run arguments).2 = d := by
  cases hreport : report octets a.format a.command with
  | ok r => exact absurd ((exists_report_iff a.format a.command).1 ⟨r, hreport⟩) hfile
  | error e =>
    rw [run_of_read h, execute_of_report_error hread hreport]
    exact ⟨rfl, rfl, rfl⟩

/-- A run that reads a grammar and has no path to write to. -/
theorem run_printed (h : Request.read arguments = .run a)
    (hread : d.read (.ofText a.file) = .ok octets) (hfile : Grammar.IsFile octets)
    (houtput : a.output = none ∨ a.output = some "") :
    (d.run arguments).1.code = 0 ∧ (d.run arguments).2 = d := by
  obtain ⟨r, hreport⟩ := (exists_report_iff a.format a.command).2 hfile
  obtain ⟨text, hstep⟩ := exists_print r.showing houtput
  obtain ⟨hcode, -, hdisk⟩ := execute_of_print hread hreport hstep
  rw [run_of_read h]
  exact ⟨hcode, hdisk⟩

/-- A run that reads a grammar and has a path to write to, beside one that has none. -/
theorem run_written {path : String} (h : Request.read arguments = .run a)
    (hread : d.read (.ofText a.file) = .ok octets) (hfile : Grammar.IsFile octets)
    (houtput : a.output = some path) (hpath : path ≠ "") (hwritable : d.Writable (.ofText path)) :
    (d.run arguments).1.code = 0 ∧
      ∃ text : String, (d.run arguments).2.read (.ofText path) = .ok text.toUTF8.toList ∧
        ∀ plain, Request.read plain = .run { a with output := none } →
          (d.run plain).1.stdout = endLine text := by
  obtain ⟨r, hreport⟩ := (exists_report_iff a.format a.command).2 hfile
  have hoffered : .output ∈ a.command.flags := (offered_of_read h).output (by simp [houtput])
  obtain ⟨label, text, hshowing⟩ := exists_document hreport hoffered
  have hwrite : r.showing.step a.output = .write (.ofText path) label text := by
    simp [hshowing, houtput, Showing.step, hpath]
  -- The report is the same in both runs; only what is done with it differs.
  have hprint : r.showing.step none = .print (endLine text) := by
    rw [hshowing]
    rfl
  obtain ⟨d', hsave⟩ := (exists_save_iff text).2 hwritable
  obtain ⟨hcode, hdisk⟩ := execute_of_write hread hreport hwrite hsave
  rw [run_of_read h, hdisk]
  refine ⟨hcode, text, read_of_save hsave, fun plain hplain => ?_⟩
  rw [run_of_read hplain]
  exact (execute_of_print (a := { a with output := none }) hread hreport hprint).2.1

/-- Two runs that differ in whether an account is asked for. -/
theorem run_debug {arguments' : List String} {debug : Bool} (h : Request.read arguments = .run a)
    (h' : Request.read arguments' = .run { a with debug := debug }) (d : Disk) :
    (d.run arguments').1.code = (d.run arguments).1.code ∧
      (d.run arguments').1.stdout = (d.run arguments).1.stdout ∧
      (d.run arguments').2 = (d.run arguments).2 := by
  rw [run_of_read h, run_of_read h']
  exact d.carryOut_congr (step_plan_debug a _ debug)

end Runs

/-! ## The law -/

/-- **What a run does** on a disk that a command line asks for. -/
structure Obeys (d : Disk) (arguments : List String) (a : Arguments) : Prop where
  /-- A file that is no grammar: the run fails, prints nothing and leaves the disk as it was. -/
  rejected : ∀ octets, d.read (.ofText a.file) = .ok octets → ¬ Grammar.IsFile octets →
    (d.run arguments).1.code = 2 ∧ (d.run arguments).1.stdout = "" ∧ (d.run arguments).2 = d
  /-- A grammar, and no path to write to or an empty one: all goes well, and the disk is as it
  was. -/
  printed : ∀ octets, d.read (.ofText a.file) = .ok octets → Grammar.IsFile octets →
    a.output = none ∨ a.output = some "" →
    (d.run arguments).1.code = 0 ∧ (d.run arguments).2 = d
  /-- A grammar, and a path that can be written to: all goes well, and the path leads to the text
  that is printed without it, but for a line feed at the end. -/
  written : ∀ octets path, d.read (.ofText a.file) = .ok octets → Grammar.IsFile octets →
    a.output = some path → path ≠ "" → d.Writable (.ofText path) →
    (d.run arguments).1.code = 0 ∧
      ∃ text : String, (d.run arguments).2.read (.ofText path) = .ok text.toUTF8.toList ∧
        (∃ plain, Request.read plain = .run { a with output := none }) ∧
        ∀ plain, Request.read plain = .run { a with output := none } →
          (d.run plain).1.stdout = text ∨ (d.run plain).1.stdout = text ++ "\n"
  /-- The option that asks for an account can be added. -/
  debug : .debug ∈ a.command.flags → ∀ s ∈ Flag.debug.spellings, ∃ rest,
    arguments = a.command.name :: rest ∧
      Request.read (a.command.name :: s :: rest) = .run { a with debug := true }
  /-- An account changes nothing but the account, whatever the file is. -/
  verbose : ∀ verbose, Request.read verbose = .run { a with debug := true } →
    (d.run verbose).1.code = (d.run arguments).1.code ∧
      (d.run verbose).1.stdout = (d.run arguments).1.stdout ∧
      (d.run verbose).2 = (d.run arguments).2

/-- **Every run does what is asked for**, whatever is on the disk. -/
theorem obeys_of_read {arguments : List String} (h : Request.read arguments = .run a) (d : Disk) :
    d.Obeys arguments a where
  rejected := fun _ hread hfile => run_rejected h hread hfile
  printed := fun _ hread hfile houtput => run_printed h hread hfile houtput
  written := by
    intro octets path hread hfile houtput hpath hwritable
    obtain ⟨hcode, text, htext, hplain⟩ := run_written h hread hfile houtput hpath hwritable
    have hoffered : Arguments.Offered { a with output := none } :=
      ⟨(offered_of_read h).format, by simp, (offered_of_read h).debug⟩
    refine ⟨hcode, text, htext, exists_read_iff.2 hoffered, fun plain hread => ?_⟩
    rw [hplain plain hread]
    exact endLine_eq text
  debug := by
    intro hdebug s hs
    obtain ⟨rest, rfl, -⟩ := read_eq_run_iff.1 h
    exact ⟨rest, rfl, read_debug h hdebug hs⟩
  verbose := fun _ hverbose => run_debug h hverbose d

/-- A disk with a file that is a grammar and one that is no text. -/
def sample : Disk :=
  { nodes := .ofList [(["g"], .file (Text.Utf8.encode "s ---> A".toList)), (["x"], .file [0xff])]
    current := [] }

/-- A table that is to go into a directory that is not there yet is written, and is what is printed
without the option; asking for an account makes no difference on the disk.  Of what is no text
nothing is drawn, and the disk stays as it was. -/
theorem obeys_of_read_table :
    ((sample.run ["table", "g", "-o", "out/t.json"]).1.code = 0 ∧
      ∃ text : String, (sample.run ["table", "g", "-o", "out/t.json"]).2.read
          (.ofText "out/t.json") = .ok text.toUTF8.toList ∧
        ((sample.run ["table", "g"]).1.stdout = text ∨
          (sample.run ["table", "g"]).1.stdout = text ++ "\n")) ∧
    (sample.run ["table", "-D", "g", "-o", "out/t.json"]).2 =
      (sample.run ["table", "g", "-o", "out/t.json"]).2 ∧
    ((sample.run ["dot", "x"]).1.code = 2 ∧ (sample.run ["dot", "x"]).2 = sample) := by
  have hg : (Path.ofText "g").hasNull = false := Path.hasNull_eq_false_iff.2 (by decide +kernel)
  have hx : (Path.ofText "x").hasNull = false := Path.hasNull_eq_false_iff.2 (by decide +kernel)
  have hout : (Path.ofText "out/t.json").hasNull = false :=
    Path.hasNull_eq_false_iff.2 (by decide +kernel)
  have habove : (Path.ofText "out/t.json").parent.hasNull = false :=
    Path.hasNull_eq_false_iff.2 (by decide +kernel)
  have hwritable : sample.Writable (.ofText "out/t.json") := by
    refine ⟨hout, { sample with nodes := sample.nodes.insert ["out"] .directory },
      ["out", "t.json"], ?_, by decide +kernel, by decide +kernel⟩
    rw [makeDirectories, habove]
    decide +kernel
  have hgrammar : Grammar.IsFile (Text.Utf8.encode "s ---> A".toList) :=
    ⟨"s ---> A", Text.Utf8.toList_toUTF8 _, [⟨"s", [.terminal "A"], some 1⟩], by decide +kernel⟩
  have hother : ¬ Grammar.IsFile [0xff] := by
    have herror : (Grammar.ofOctets [0xff]).isOk = false := by decide +kernel
    rw [Grammar.isFile_iff]
    rintro ⟨g, h⟩
    rw [h] at herror
    cases herror
  have hreadg : sample.read (.ofText "g") = .ok (Text.Utf8.encode "s ---> A".toList) :=
    read_eq_ok_iff.2 ⟨hg, by decide +kernel⟩
  have hreadx : sample.read (.ofText "x") = .ok [0xff] := read_eq_ok_iff.2 ⟨hx, by decide +kernel⟩
  have htable : Request.read ["table", "g", "-o", "out/t.json"] =
      .run ⟨.table, "g", .json, some "out/t.json", false⟩ := by decide +kernel
  have hdot : Request.read ["dot", "x"] = .run ⟨.dot, "x", .json, none, false⟩ := by decide +kernel
  have h := obeys_of_read htable sample
  obtain ⟨hcode, text, htext, -, hplain⟩ :=
    h.written _ _ hreadg hgrammar rfl (by decide +kernel) hwritable
  obtain ⟨-, -, hverbose⟩ := h.verbose ["table", "-D", "g", "-o", "out/t.json"] (by decide +kernel)
  obtain ⟨hcode', -, hdisk⟩ := (obeys_of_read hdot sample).rejected _ hreadx hother
  exact ⟨⟨hcode, text, htext, hplain ["table", "g"] (by decide +kernel)⟩, hverbose, hcode', hdisk⟩

end Disk

end LRTables.CommandLine
