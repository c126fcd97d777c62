import LRTables.CommandLine.Request
import LRTables.Proofs.CommandLine.Argument

/-!
# What can be asked for

A request names a command, and only options of that command are read.  All that a command can be
asked for has a spelling, and an account is asked for by one more option behind the name of the
command.

* `Arguments.Offered` — is only asked for what the command offers?
* `read_eq_run_iff` — the command lines that ask a command for something.
* `exists_read_iff` — what a command can be asked for.
* `read_debug` — the option that asks for an account.
-/

namespace LRTables.CommandLine

variable {flags : List Flag} {f : Flag} {g g' : Gathered}

/-! ## What the options of a list can say -/

/-- Is what was read said by options of the list? -/
structure Gathered.Within (flags : List Flag) (g : Gathered) : Prop where
  /-- The form of the table. -/
  format : g.format ≠ .json → .format ∈ flags
  /-- The file to write to. -/
  output : g.output ≠ none → .output ∈ flags
  /-- The account. -/
  debug : g.debug = true → .debug ∈ flags

namespace Gathered.Within

theorem nothing : Gathered.Within flags {} := ⟨by simp, by simp, by simp⟩

theorem file (hg : g.Within flags) (a : String) :
    Gathered.Within flags { g with file := some a } := ⟨hg.format, hg.output, hg.debug⟩

theorem extra (hg : g.Within flags) (a : String) : (g.extra a).Within flags :=
  ⟨hg.format, hg.output, hg.debug⟩

theorem leftover (hg : g.Within flags) (l : Option String) :
    Gathered.Within flags (match l with | none => g | some a => g.extra a) := by
  cases l with
  | none => exact hg
  | some a => exact hg.extra a

theorem give {value : String} (hg : g.Within flags) (hf : f ∈ flags)
    (h : g.give f value = .ok g') : g'.Within flags := by
  cases f with
  | help => cases h
  | debug =>
    cases h
    exact ⟨hg.format, hg.output, fun _ => hf⟩
  | output =>
    cases h
    exact ⟨hg.format, fun _ => hf, hg.debug⟩
  | format =>
    simp only [Gathered.give] at h
    split at h
    · cases h
      exact ⟨fun _ => hf, hg.output, hg.debug⟩
    · cases h

theorem giveAll {given : List (Flag × Option String)} (hg : g.Within flags)
    (hgiven : ∀ x ∈ given, x.1 ∈ flags) (h : g.giveAll given = .ok g') : g'.Within flags := by
  induction given generalizing g with
  | nil =>
    cases h
    exact hg
  | cons x rest ih =>
    rw [Gathered.giveAll, List.foldlM_cons] at h
    obtain ⟨g₁, hgive, hrest⟩ := bind_eq_ok_iff.1 h
    obtain ⟨hx, hgiven⟩ := List.forall_mem_cons.1 hgiven
    exact ih (hg.give hx hgive) hgiven hrest

theorem of_gather {cs : List Classified} (hg : g.Within flags) (hcs : ∀ c ∈ cs, c.Within flags)
    (h : gather flags g cs = .ok g') : g'.Within flags := by
  fun_induction gather flags g cs with
  | case1 =>
    cases h
    exact hg
  | case2 g a rest _ ih =>
    simp only [List.forall_mem_cons] at hcs
    exact ih (hg.file a) hcs.2.2 h
  | case3 g a rest _ _ ih =>
    simp only [List.forall_mem_cons] at hcs
    exact ih ((hg.extra a).extra "--") hcs.2.2 h
  | case4 g a rest _ _ ih => exact ih (hg.file a) (List.forall_mem_cons.1 hcs).2 h
  | case5 g a rest _ _ _ ih => exact ih (hg.extra a) (List.forall_mem_cons.1 hcs).2 h
  | case6 g a rest _ ih =>
    simp only [List.forall_mem_cons] at hcs
    exact ih (hg.file a) hcs.2.2 h
  | case7 g a rest _ _ ih =>
    simp only [List.forall_mem_cons] at hcs
    exact ih ((hg.extra "--").extra a) hcs.2.2 h
  | case8 g rest _ ih => exact ih (hg.extra "--") (List.forall_mem_cons.1 hcs).2 h
  | case9 g a rest ih => exact ih (hg.extra a) (List.forall_mem_cons.1 hcs).2 h
  | case10 => cases h
  -- An option with all that it needs.
  | case11 g f isShort attached rest c hcluster g₁ _ ih =>
    obtain ⟨hflag, hrest⟩ := List.forall_mem_cons.1 hcs
    have hc := Cluster.Within.of_cluster (hflag f isShort attached rfl) hcluster
    obtain ⟨g₂, hgiven, h⟩ := bind_eq_ok_iff.1 h
    exact ih g₂ ((hg.leftover c.leftover?).giveAll hc.given hgiven) hrest h
  -- An option with its value in the next argument.
  | case12 g f isShort attached c hcluster g₁ opened hopened value rest ih =>
    simp only [List.forall_mem_cons] at hcs
    obtain ⟨hflag, -, hrest⟩ := hcs
    have hc := Cluster.Within.of_cluster (hflag f isShort attached rfl) hcluster
    obtain ⟨g₂, hgiven, h⟩ := bind_eq_ok_iff.1 h
    obtain ⟨g₃, hgive, h⟩ := bind_eq_ok_iff.1 h
    have hg₂ := (hg.leftover c.leftover?).giveAll hc.given hgiven
    exact ih g₃ (hg₂.give (hc.awaiting opened hopened) hgive) hrest h
  | case13 => cases h

end Gathered.Within

/-! ## The arguments of a command -/

/-- Goes through arguments as they are spelled. -/
def gatherSpelled (flags : List Flag) (g : Gathered) (arguments : List String) :
    Except Stop Gathered :=
  match classifyAll flags arguments with
  | .error e => .error (.fault e)
  | .ok classified => gather flags g classified

theorem readCommand_eq_ok_iff {command : Command} {arguments extras : List String} {a : Arguments} :
    readCommand command arguments = .ok (a, extras) ↔
      gatherSpelled command.flags {} arguments =
          .ok ⟨some a.file, a.format, a.output, a.debug, extras⟩ ∧ a.command = command := by
  unfold readCommand gatherSpelled
  cases classifyAll command.flags arguments with
  | error e => simp
  | ok cs =>
    simp only
    rw [bind_eq_ok_iff]
    constructor
    · rintro ⟨g, hg, h⟩
      obtain ⟨file, format, output, debug, extras'⟩ := g
      cases file with
      | none => cases h
      | some file =>
        cases h
        exact ⟨hg, rfl⟩
    · rintro ⟨hg, rfl⟩
      exact ⟨_, hg, rfl⟩

theorem classifyAll_cons {argument : String} {c : Classified} {rest : List String}
    (hne : argument ≠ "--") (hc : classify flags argument = .ok c) :
    classifyAll flags (argument :: rest) = (c :: ·) <$> classifyAll flags rest := by
  rw [classifyAll, if_neg hne, hc]
  rfl

/-- An option without a value. -/
theorem gatherSpelled_alone {s : String} {rest : List String} (hf : f ∈ flags)
    (hs : s ∈ f.spellings) (hvalue : f.takesValue = false) (hgive : g.give f "" = .ok g') :
    gatherSpelled flags g (s :: rest) = gatherSpelled flags g' rest := by
  obtain ⟨isShort, hclassify⟩ := classify_of_mem_spellings hf hs
  rw [gatherSpelled, classifyAll_cons (f.spellings_shape s hs).2.2.1 hclassify, gatherSpelled]
  cases classifyAll flags rest with
  | error e => rfl
  | ok cs =>
    simp [Functor.map, Except.map, gather, cluster, alone, hvalue, Gathered.giveAll, hgive, bind,
      Except.bind, pure, Except.pure]

/-- An option with its value. -/
theorem gatherSpelled_assign {value : String} {rest : List String} (hf : f ∈ flags)
    (hvalue : f.takesValue = true) (hgive : g.give f value = .ok g') :
    gatherSpelled flags g (f.assign value :: rest) = gatherSpelled flags g' rest := by
  have hne : f.assign value ≠ "--" := fun heq => by
    have := congrArg String.toList heq
    simp [toList_assign] at this
  rw [gatherSpelled, classifyAll_cons hne (classify_assign hf value), gatherSpelled]
  cases classifyAll flags rest with
  | error e => rfl
  | ok cs =>
    simp [Functor.map, Except.map, gather, cluster, hvalue, Gathered.giveAll, hgive, bind,
      Except.bind, pure, Except.pure]

/-- The file, behind the two dashes. -/
theorem gatherSpelled_file (hg : g.file = none) (file : String) :
    gatherSpelled flags g ["--", file] = .ok { g with file := some file } := by
  simp [gatherSpelled, classifyAll, gather, hg]

/-! ## The command line -/

theorem classify_name (c : Command) : classify topFlags c.name = .ok (.plain c.name) := by
  cases c <;> rfl

theorem name_of_ofName? {name : String} {c : Command} (h : Command.ofName? name = some c) :
    c.name = name := by
  have := List.find?_some h
  simpa using this

theorem readFrom_eq_run {extras arguments : List String} {a : Arguments}
    (h : readFrom extras arguments = .run a) :
    extras = [] ∧
      ∃ rest, arguments = a.command.name :: rest ∧ readCommand a.command rest = .ok (a, []) := by
  fun_induction readFrom extras arguments with
  | case1 => cases h
  | case2 => cases h
  | case3 => cases h
  | case4 => cases h
  | case5 => cases h
  | case6 => cases h
  | case7 extras argument rest _ unknown _ ih => exact absurd (ih h).1 (by simp)
  | case8 => cases h
  | case9 _ _ _ _ _ _ _ _ _ _ stop => cases stop <;> cases h
  | case10 extras argument rest _ c _ _ _ command hname a' more hread hempty =>
    cases h
    obtain ⟨hextras, hmore⟩ : extras = [] ∧ more = [] := by simpa using hempty
    obtain ⟨-, rfl⟩ := readCommand_eq_ok_iff.1 hread
    subst hmore
    exact ⟨hextras, rest, by rw [name_of_ofName? hname], hread⟩
  | case11 => cases h

/-- **The command lines that ask a command for something**: its name, and arguments all of which
mean something to it. -/
theorem read_eq_run_iff {arguments : List String} {a : Arguments} :
    Request.read arguments = .run a ↔
      ∃ rest, arguments = a.command.name :: rest ∧
        gatherSpelled a.command.flags {} rest =
          .ok ⟨some a.file, a.format, a.output, a.debug, []⟩ := by
  constructor
  · intro h
    obtain ⟨-, rest, harguments, hread⟩ := readFrom_eq_run h
    exact ⟨rest, harguments, (readCommand_eq_ok_iff.1 hread).1⟩
  · rintro ⟨rest, rfl, hgather⟩
    have hread : readCommand a.command rest = .ok (a, []) :=
      readCommand_eq_ok_iff.2 ⟨hgather, rfl⟩
    have hname : a.command.name ≠ "--" := by cases a.command <;> decide
    rw [Request.read, readFrom, classify_name]
    · simp only [Command.ofName?_name, hread, List.append_nil, List.isEmpty_nil, if_true]
    · exact hname

/-! ## What can be asked for -/

/-- **Is only asked for what the command offers?** -/
def Arguments.Offered (a : Arguments) : Prop :=
  Gathered.Within a.command.flags ⟨some a.file, a.format, a.output, a.debug, []⟩

/-- The options of a request, each in one argument. -/
def Arguments.options (a : Arguments) : List String :=
  (if a.format = .json then [] else [Flag.format.assign a.format.name]) ++
    (a.output.toList.map Flag.output.assign ++ if a.debug then [Flag.debug.long] else [])

/-- A command line that asks for something. -/
def Arguments.spelled (a : Arguments) : List String :=
  a.command.name :: (a.options ++ ["--", a.file])

theorem give_format (g : Gathered) (format : Format) :
    g.give .format format.name = .ok { g with format := format } := by
  cases format <;> rfl

/-- What a command offers is read as it is spelled. -/
theorem read_spelled {a : Arguments} (ha : a.Offered) : Request.read a.spelled = .run a := by
  refine read_eq_run_iff.2 ⟨_, rfl, ?_⟩
  obtain ⟨command, file, format, output, debug⟩ := a
  have hformat (rest : List String) :
      gatherSpelled command.flags {}
          ((if format = .json then [] else [Flag.format.assign format.name]) ++ rest) =
        gatherSpelled command.flags { format := format } rest := by
    by_cases hjson : format = .json
    · simp [hjson]
    · rw [if_neg hjson]
      exact gatherSpelled_assign (ha.format hjson) rfl (give_format _ format)
  have houtput (rest : List String) :
      gatherSpelled command.flags { format := format }
          (output.toList.map Flag.output.assign ++ rest) =
        gatherSpelled command.flags { format := format, output := output } rest := by
    cases output with
    | none => rfl
    | some path => exact gatherSpelled_assign (ha.output (by simp)) rfl rfl
  have hdebug (rest : List String) :
      gatherSpelled command.flags { format := format, output := output }
          ((if debug then [Flag.debug.long] else []) ++ rest) =
        gatherSpelled command.flags { format := format, output := output, debug := debug }
          rest := by
    cases debug with
    | false => rfl
    | true => exact gatherSpelled_alone (ha.debug rfl) Flag.debug.long_mem_spellings rfl rfl
  rw [Arguments.options, List.append_assoc, List.append_assoc, hformat, houtput, hdebug]
  exact gatherSpelled_file rfl file

theorem offered_of_read {arguments : List String} {a : Arguments}
    (h : Request.read arguments = .run a) : a.Offered := by
  obtain ⟨rest, -, hgather⟩ := read_eq_run_iff.1 h
  unfold gatherSpelled at hgather
  split at hgather
  · cases hgather
  · rename_i cs hcs
    exact Gathered.Within.nothing.of_gather (Classified.Within.of_classifyAll hcs) hgather

/-- **What a command can be asked for** is what it offers. -/
theorem exists_read_iff {a : Arguments} :
    (∃ arguments, Request.read arguments = .run a) ↔ a.Offered :=
  ⟨fun ⟨_, h⟩ => offered_of_read h, fun ha => ⟨a.spelled, read_spelled ha⟩⟩

/-! ## Asking for an account -/

/-- What was read, with an account asked for. -/
def Gathered.verbose (g : Gathered) : Gathered := { g with debug := true }

/-- One step of a reading and what follows it, where what follows is the same with an account. -/
theorem give_verbose_bind (g : Gathered) (f : Flag) (value : String)
    {next : Gathered → Except Stop Gathered}
    (hnext : ∀ g, next g.verbose = Gathered.verbose <$> next g) :
    g.verbose.give f value >>= next = Gathered.verbose <$> (g.give f value >>= next) := by
  cases f with
  | help => rfl
  | debug => exact hnext { g with debug := true }
  | output => exact hnext { g with output := some value }
  | format =>
    simp only [Gathered.give]
    cases Format.ofName? value with
    | none => rfl
    | some format => exact hnext { g with format := format }

theorem giveAll_verbose_bind (g : Gathered) (given : List (Flag × Option String))
    {next : Gathered → Except Stop Gathered}
    (hnext : ∀ g, next g.verbose = Gathered.verbose <$> next g) :
    g.verbose.giveAll given >>= next = Gathered.verbose <$> (g.giveAll given >>= next) := by
  induction given generalizing g with
  | nil => exact hnext g
  | cons x rest ih =>
    simp only [Gathered.giveAll, List.foldlM_cons, bind_assoc]
    exact give_verbose_bind g x.1 (x.2.getD "") ih

/-- Arguments say the same after an account was asked for as they do before. -/
theorem gather_verbose (flags : List Flag) (g : Gathered) (cs : List Classified) :
    gather flags g.verbose cs = Gathered.verbose <$> gather flags g cs := by
  have hsame (g : Gathered) : g.verbose.file = g.file := rfl
  fun_induction gather flags g cs with
  | case1 => rfl
  | case2 g a rest hfile ih =>
    rw [gather, hsame, hfile]
    exact ih
  | case3 g a rest _ hfile ih =>
    rw [gather, hsame, hfile]
    exact ih
  | case4 g a rest hrest hfile ih =>
    rw [gather, hsame, hfile]
    · exact ih
    · exact hrest
  | case5 g a rest hrest _ hfile ih =>
    rw [gather, hsame, hfile]
    · exact ih
    · exact hrest
  | case6 g a rest hfile ih =>
    rw [gather, hsame, hfile]
    exact ih
  | case7 g a rest _ hfile ih =>
    rw [gather, hsame, hfile]
    exact ih
  | case8 g rest hrest ih =>
    rw [gather]
    · exact ih
    · exact hrest
  | case9 g a rest ih =>
    rw [gather]
    exact ih
  | case10 g f isShort attached rest e hcluster =>
    rw [gather, hcluster]
    rfl
  | case11 g f isShort attached rest c hcluster g₁ hawaiting ih =>
    obtain ⟨given, awaiting, leftover⟩ := c
    subst hawaiting
    rw [gather, hcluster]
    cases leftover with
    | none => exact giveAll_verbose_bind g given ih
    | some l => exact giveAll_verbose_bind (g.extra l) given ih
  | case12 g f isShort attached c hcluster g₁ opened hawaiting value rest ih =>
    obtain ⟨given, awaiting, leftover⟩ := c
    subst hawaiting
    rw [gather, hcluster]
    have hgive (g₂ : Gathered) :
        g₂.verbose.give opened value >>= (gather flags · rest) =
          Gathered.verbose <$> (g₂.give opened value >>= (gather flags · rest)) :=
      give_verbose_bind g₂ opened value ih
    cases leftover with
    | none => exact giveAll_verbose_bind g given hgive
    | some l => exact giveAll_verbose_bind (g.extra l) given hgive
  | case13 g f isShort attached rest c hcluster opened hawaiting hrest =>
    simp only [gather, hcluster, hawaiting]
    rfl

theorem gatherSpelled_verbose (flags : List Flag) (g : Gathered) (arguments : List String) :
    gatherSpelled flags g.verbose arguments =
      Gathered.verbose <$> gatherSpelled flags g arguments := by
  unfold gatherSpelled
  cases classifyAll flags arguments with
  | error e => rfl
  | ok cs => exact gather_verbose flags g cs

/-- **The option that asks for an account**, behind the name of the command, asks for that and
for nothing else. -/
theorem read_debug {c : Command} {rest : List String} {a : Arguments} {s : String}
    (h : Request.read (c.name :: rest) = .run a) (hdebug : .debug ∈ c.flags)
    (hs : s ∈ Flag.debug.spellings) :
    Request.read (c.name :: s :: rest) = .run { a with debug := true } := by
  obtain ⟨rest', hrest, hgather⟩ := read_eq_run_iff.1 h
  obtain ⟨hname, rfl⟩ := List.cons.inj hrest
  have hc : c = a.command := by
    have := Command.ofName?_name c
    rw [hname, Command.ofName?_name] at this
    exact (Option.some.inj this).symm
  subst hc
  refine read_eq_run_iff.2 ⟨s :: rest, rfl, ?_⟩
  have hgive : Gathered.give {} .debug "" = .ok (Gathered.verbose {}) := rfl
  rw [gatherSpelled_alone hdebug hs rfl hgive, gatherSpelled_verbose, hgather]
  rfl

end LRTables.CommandLine
