import LRTables.Proofs.Grammar.Line

/-!
# Where a text is wrong

A text that is no grammar has a first fault, and that is the one that is told.  Lines are read in
order, so the fault of a line is that of the first line that neither is a rule nor says nothing.
Non-terminals without a rule are looked for when all lines have been read, and of them the first
one is told, in the order of the text.

* `Grammar.exists_of_readLines_error` — the first line with a fault.
* `Grammar.references` — the symbols on right sides, in the order of the text.
* `Grammar.dangles_iff` — the non-terminals without a rule.
* `Grammar.PointsAt` — what is told of a place.
* `Grammar.parse_error` — the fault of a text.
-/

namespace LRTables.Grammar

/-- The lines of a text, whatever the line ends. -/
def linesOf (text : String) : List (List Char) :=
  Text.splitLines (Text.normalizeNewlines text.toList)

/-! ## The first line with a fault -/

/-- **Reading lines fails at the first line** that neither is a rule nor says nothing. -/
theorem exists_of_readLines_error {lines : List (List Char)} {number : Nat} {e : ReadError}
    (h : readLines number lines = .error e) :
    ∃ cs k f, (cs, k) ∈ lines.zipIdx number ∧ Speaks cs ∧ RuleLine.read k cs = .error f ∧
      e = f.inLine k cs ∧ ∀ l ∈ lines.zipIdx number, l.2 < k → IsRule l.1 ∨ ¬ Speaks l.1 := by
  induction lines generalizing number with
  | nil => exact absurd h (by simp [readLines])
  | cons text rest ih =>
    rw [List.zipIdx_cons]
    -- a fault behind a line that has none
    have behind : readLines (number + 1) rest = .error e → IsRule text ∨ ¬ Speaks text →
        ∃ cs k f, (cs, k) ∈ (text, number) :: rest.zipIdx (number + 1) ∧ Speaks cs ∧
          RuleLine.read k cs = .error f ∧ e = f.inLine k cs ∧
          ∀ l ∈ (text, number) :: rest.zipIdx (number + 1), l.2 < k → IsRule l.1 ∨ ¬ Speaks l.1 := by
      intro hrest htext
      obtain ⟨cs, k, f, hmem, hspeaks, hread, he, hbefore⟩ := ih hrest
      exact ⟨cs, k, f, List.mem_cons_of_mem _ hmem, hspeaks, hread, he,
        List.forall_mem_cons.2 ⟨fun _ => htext, hbefore⟩⟩
    rw [readLines] at h
    split at h
    · rename_i hskip
      refine behind h (Or.inr fun hspeaks => ?_)
      rw [(isSkipped_eq_false_iff text).2 hspeaks] at hskip
      exact absurd hskip (by simp)
    · rename_i hspeaks
      split at h
      · rename_i f hread
        refine ⟨text, number, f, List.mem_cons_self ..,
          (isSkipped_eq_false_iff text).1 (by simpa using hspeaks), hread,
          (Except.error.inj h).symm, ?_⟩
        -- no line of a smaller number is left
        refine List.forall_mem_cons.2 ⟨fun hlt => absurd hlt (Nat.lt_irrefl _), fun l hl hlt => ?_⟩
        have hle := List.le_snd_of_mem_zipIdx hl
        omega
      · rename_i r hread
        exact behind (map_eq_error_iff.1 h) (Or.inl (isRule_of_read hread))

/-! ## Non-terminals without a rule -/

/-- The symbols on the right sides, with their rules, in the order of the text. -/
def references (rules : List RuleLine) : List (RuleLine × Occurrence) :=
  rules.flatMap fun r => r.alternatives.flatten.map fun o => (r, o)

theorem mem_references {rules : List RuleLine} {r : RuleLine} {o : Occurrence} :
    (r, o) ∈ references rules ↔ r ∈ rules ∧ o ∈ r.alternatives.flatten := by
  simp only [references, List.mem_flatMap, List.mem_map]
  constructor
  · rintro ⟨r', hr', o', ho', heq⟩
    obtain ⟨rfl, rfl⟩ := Prod.mk.inj heq
    exact ⟨hr', ho'⟩
  · rintro ⟨hr, ho⟩
    exact ⟨r, hr, o, ho, rfl⟩

/-- The first result on lists put together is the first one on one of the lists. -/
theorem findSome?_flatMap {α β γ : Type} (f : β → Option γ) (g : α → List β) (l : List α) :
    (l.flatMap g).findSome? f = l.findSome? fun a => (g a).findSome? f := by
  simp only [← List.head?_filterMap, List.filterMap_flatMap, List.head?_flatMap]

/-- The fault of a symbol, if it is a non-terminal that is not among the names. -/
def unresolvedAt? (defined : List String) (e : RuleLine × Occurrence) : Option ReadError :=
  match e.2.1 with
  | .terminal _ => none
  | .nonterminal name =>
    if name ∈ defined then none
    else some (LineFault.inLine e.1.number e.1.text (.unresolved name, e.2.2))

/-- What is unresolved is looked for in the order of the text. -/
theorem unresolved?_eq (defined : List String) (rules : List RuleLine) :
    unresolved? defined rules = (references rules).findSome? (unresolvedAt? defined) := by
  simp only [references, ← List.flatMap_id, findSome?_flatMap, List.findSome?_map, id]
  rfl

theorem unresolvedAt?_eq_some_iff {defined : List String} {e : RuleLine × Occurrence}
    {fault : ReadError} : unresolvedAt? defined e = some fault ↔
      ∃ n, e.2.1 = .nonterminal n ∧ n ∉ defined ∧
        fault = LineFault.inLine e.1.number e.1.text (.unresolved n, e.2.2) := by
  unfold unresolvedAt?
  split
  · rename_i a ha
    simp [ha]
  · rename_i n hn
    by_cases hmem : n ∈ defined
    · simp [hn, hmem]
    · simp [hn, hmem, eq_comm]

/-- Is the place before the other in the text, or the same? -/
def Precedes (a b : Nat × Nat) : Prop := a.1 < b.1 ∨ a.1 = b.1 ∧ a.2 ≤ b.2

/-- The symbols stand in the order of the text. -/
theorem pairwise_references {lines : List (List Char)} {rules : List RuleLine}
    (h : readLines 1 lines = .ok rules) :
    (references rules).Pairwise fun a b =>
      Precedes (a.1.number, a.2.2) (b.1.number, b.2.2) := by
  rw [references, List.pairwise_flatMap]
  constructor
  · -- on one line
    intro r hr
    obtain ⟨cs, -, -, hread⟩ := (mem_of_readLines h).1 r hr
    refine List.pairwise_map.2 ((pairwise_flatten hread).imp ?_)
    intro a b hlt
    exact Or.inr ⟨rfl, Nat.le_of_lt hlt⟩
  · refine (List.pairwise_map.1 (pairwise_numbers h)).imp ?_
    intro r s hlt x hx y hy
    obtain ⟨a, -, rfl⟩ := List.mem_map.1 hx
    obtain ⟨b, -, rfl⟩ := List.mem_map.1 hy
    exact Or.inl hlt

/-- **Does a non-terminal without a rule** stand on the right side of the line of the number, at
the column? -/
def Dangles (lines : List (List Char)) (place : Nat × Nat) (n : String) : Prop :=
  (∃ cs, (cs, place.1) ∈ lines.zipIdx 1 ∧ Mentions cs n place.2) ∧ ∀ cs ∈ lines, ¬ Defines cs n

/-- The names on left sides are the ones that are read. -/
theorem mem_lhs_iff {lines : List (List Char)} {rules : List RuleLine}
    (h : readLines 1 lines = .ok rules) (n : String) :
    n ∈ rules.map RuleLine.lhs ↔ ∃ cs ∈ lines, Defines cs n := by
  constructor
  · intro hn
    obtain ⟨r, hr, hlhs⟩ := List.mem_map.1 hn
    obtain ⟨cs, hcs, -, hread⟩ := (mem_of_readLines h).1 r hr
    exact ⟨cs, List.fst_mem_of_mem_zipIdx hcs, (defines_iff hread n).2 hlhs⟩
  · rintro ⟨cs, hcs, hdefines⟩
    have hspeaks : Speaks cs := by
      obtain ⟨r, l, hstands, -⟩ := hdefines
      exact IsRule.speaks ⟨r, l, hstands⟩
    obtain ⟨k, r, hr, hread⟩ := exists_read_of_mem h hcs hspeaks
    exact List.mem_map.2 ⟨r, hr, (defines_iff hread n).1 hdefines⟩

/-- **The non-terminals without a rule** are those of the symbols on right sides that are not on a
left side. -/
theorem dangles_iff {lines : List (List Char)} {rules : List RuleLine}
    (h : readLines 1 lines = .ok rules) (place : Nat × Nat) (n : String) :
    Dangles lines place n ↔ n ∉ rules.map RuleLine.lhs ∧
      ∃ r, (r, (.nonterminal n, place.2)) ∈ references rules ∧ r.number = place.1 := by
  have hdefined : (∀ cs ∈ lines, ¬ Defines cs n) ↔ n ∉ rules.map RuleLine.lhs := by
    rw [mem_lhs_iff h]
    simp
  rw [Dangles, hdefined, and_comm]
  refine and_congr_right fun _ => ?_
  constructor
  · rintro ⟨cs, hcs, hmentions⟩
    have hspeaks : Speaks cs := by
      obtain ⟨r, l, hstands, -⟩ := hmentions
      exact IsRule.speaks ⟨r, l, hstands⟩
    obtain ⟨r, hr, hread⟩ := (mem_of_readLines h).2 _ hcs hspeaks
    exact ⟨r, mem_references.2 ⟨hr, (mentions_iff hread n place.2).1 hmentions⟩,
      (RuleLine.read_ok hread).1⟩
  · rintro ⟨r, hr, hnumber⟩
    obtain ⟨hr, ho⟩ := mem_references.1 hr
    obtain ⟨cs, hcs, -, hread⟩ := (mem_of_readLines h).1 r hr
    rw [hnumber] at hcs
    exact ⟨cs, hcs, (mentions_iff hread n place.2).2 ho⟩

/-! ## The fault of a text -/

/-- **The place that a fault tells of.**  The line says something, and the column is one of it. -/
structure PointsAt (lines : List (List Char)) (reason : Reason) (number column : Nat)
    (cs : List Char) : Prop where
  /-- The line has the number, counted from one on. -/
  line : (cs, number) ∈ lines.zipIdx 1
  /-- It is neither blank nor a comment. -/
  speaks : Speaks cs
  /-- The column is one of the line, counted from one on. -/
  inside : 1 ≤ column ∧ column ≤ cs.length
  /-- Unless a non-terminal is unresolved, the line is no rule, but all lines before it are rules,
  blank or comments. -/
  first : (∀ n, reason ≠ .unresolved n) →
    ¬ IsRule cs ∧ ∀ l ∈ lines.zipIdx 1, l.2 < number → IsRule l.1 ∨ ¬ Speaks l.1
  /-- If a non-terminal is unresolved, all lines are rules, blank or comments, and it stands at the
  first place with a non-terminal that is on no left side. -/
  unresolved : ∀ n, reason = .unresolved n →
    (∀ l ∈ lines, IsRule l ∨ ¬ Speaks l) ∧ Dangles lines (number, column) n ∧
      ∀ place m, Dangles lines place m → Precedes (number, column) place
  /-- If a character is unexpected, it is the first one of the line that nothing begins with. -/
  unexpected : ∀ c, reason = .unexpectedChar c → FirstMisfit cs c column

/-- A symbol on a right side stands at a column of its line. -/
theorem column_of_mentions {cs : List Char} {n : String} {column : Nat}
    (h : Mentions cs n column) : 1 ≤ column ∧ column ≤ cs.length := by
  obtain ⟨r, l, hstands, -, hmem⟩ := h
  exact hstands.spells.le_length_of_mem_placed (List.mem_of_mem_drop hmem)

/-- What is told of a line with a fault. -/
theorem exists_pointsAt_of_readLines {lines : List (List Char)} {e : ReadError}
    (h : readLines 1 lines = .error e) :
    ∃ reason number column cs, e = .fault reason number column (String.ofList cs) ∧
      PointsAt lines reason number column cs := by
  obtain ⟨cs, k, f, hmem, hspeaks, hread, rfl, hbefore⟩ := exists_of_readLines_error h
  obtain ⟨hnot, hcolumn, hresolved, hunexpected⟩ := read_error hspeaks hread
  refine ⟨f.1, k, f.2, cs, rfl, hmem, hspeaks, hcolumn, fun _ => ⟨hnot, hbefore⟩, ?_, hunexpected⟩
  intro n hn
  exact absurd hn (hresolved n)

/-- Where lines can be read, each is a rule or says nothing. -/
theorem isRule_or_not_speaks {lines : List (List Char)} {rules : List RuleLine}
    (h : readLines 1 lines = .ok rules) : ∀ cs ∈ lines, IsRule cs ∨ ¬ Speaks cs := by
  intro cs hcs
  by_cases hspeaks : Speaks cs
  · obtain ⟨k, r, -, hread⟩ := exists_read_of_mem h hcs hspeaks
    exact Or.inl (isRule_of_read hread)
  · exact Or.inr hspeaks

/-- **What is found first is first**: a non-terminal without a rule is not among the symbols that
were passed over, so it stands at the one where the search stopped or behind it. -/
theorem precedes_of_dangles {lines : List (List Char)} {rules : List RuleLine}
    (h : readLines 1 lines = .ok rules) {before after : List (RuleLine × Occurrence)}
    {r : RuleLine} {o : Occurrence} (hsplit : references rules = before ++ (r, o) :: after)
    (hbefore : ∀ e ∈ before, unresolvedAt? (rules.map RuleLine.lhs) e = none)
    {place : Nat × Nat} {n : String} (hn : Dangles lines place n) :
    Precedes (r.number, o.2) place := by
  obtain ⟨hn, s, hs, hnumber⟩ := (dangles_iff h place n).1 hn
  have hpairwise := pairwise_references h
  rw [hsplit] at hs hpairwise
  rcases List.mem_append.1 hs with hs | hs
  · have hnone := hbefore _ hs
    simp [unresolvedAt?, hn] at hnone
  · rcases List.mem_cons.1 hs with heq | hs
    · obtain ⟨rfl, rfl⟩ := Prod.mk.inj heq
      exact Or.inr ⟨hnumber, Nat.le_refl _⟩
    · have hle := (List.pairwise_cons.1 (List.pairwise_append.1 hpairwise).2.1).1 _ hs
      rw [hnumber] at hle
      exact hle

/-- What is told of an unresolved non-terminal. -/
theorem exists_pointsAt_of_unresolved? {lines : List (List Char)} {rules : List RuleLine}
    (h : readLines 1 lines = .ok rules) {e : ReadError}
    (he : unresolved? (rules.map RuleLine.lhs) rules = some e) :
    ∃ reason number column cs, e = .fault reason number column (String.ofList cs) ∧
      PointsAt lines reason number column cs := by
  rw [unresolved?_eq] at he
  obtain ⟨before, ⟨r, x, column⟩, after, hsplit, hfound, hbefore⟩ :=
    List.findSome?_eq_some_iff.1 he
  obtain ⟨n, rfl, hn, rfl⟩ := unresolvedAt?_eq_some_iff.1 hfound
  have hmem : (r, (.nonterminal n, column)) ∈ references rules := by
    rw [hsplit]
    simp
  obtain ⟨cs, hcs, hspeaks, hread⟩ := (mem_of_readLines h).1 r (mem_references.1 hmem).1
  have hmentions := (mentions_iff hread n column).2 (mem_references.1 hmem).2
  refine ⟨.unresolved n, r.number, column, cs, ?_, hcs, hspeaks, column_of_mentions hmentions,
    fun hne => absurd rfl (hne n), ?_, by simp⟩
  · rw [LineFault.inLine, (RuleLine.read_ok hread).2.1]
  · intro m hm
    obtain rfl := Reason.unresolved.inj hm
    exact ⟨isRule_or_not_speaks h, (dangles_iff h _ n).2 ⟨hn, r, hmem, rfl⟩,
      fun place m hm => precedes_of_dangles h hsplit hbefore hm⟩

/-- What can be wrong with lines: one of them, all of them, or what they say of each other. -/
theorem ofLines_error {lines : List (List Char)} {e : ReadError} (h : ofLines lines = .error e) :
    readLines 1 lines = .error e ∨ ∃ rules, readLines 1 lines = .ok rules ∧
      (rules = [] ∧ e = .noRules ∨ unresolved? (rules.map RuleLine.lhs) rules = some e) := by
  rcases bind_eq_error_iff.1 h with h | ⟨rules, hread, h⟩
  · exact Or.inl h
  · refine Or.inr ⟨rules, hread, ?_⟩
    by_cases hne : rules.isEmpty = true
    · simp only [hne, if_true, throw, throwThe, MonadExceptOf.throw, bind, Except.bind,
        Except.error.injEq] at h
      exact Or.inl ⟨by simpa using hne, h.symm⟩
    · simp only [hne] at h
      cases hun : unresolved? (rules.map RuleLine.lhs) rules with
      | some e' =>
        rw [hun] at h
        rw [Except.error.inj h]
        exact Or.inr rfl
      | none =>
        rw [hun] at h
        exact absurd h (by simp [pure, Except.pure])

/-- The caret stands under its column. -/
theorem caret_eq (column : Nat) :
    caret column = String.ofList (List.replicate (column - 1) ' ' ++ ['^']) := by
  have hpush : ∀ n, ("".pushn ' ' n).toList = List.replicate n ' ' := by
    intro n
    unfold String.pushn
    induction n with
    | zero => rfl
    | succ n ih => rw [Nat.repeat, String.toList_push, ih, List.replicate_succ']
  rw [caret, ← String.toList_inj, String.toList_ofList, String.toList_append, hpush]
  rfl

/-- How a fault is told. -/
theorem message_fault (reason : Reason) (number column : Nat) (text : String) :
    (ReadError.fault reason number column text).message =
      reason.message ++ " at " ++ toString number ++ ":" ++ toString column ++ "\n" ++ text ++ "\n" ++
        String.ofList (List.replicate (column - 1) ' ' ++ ['^']) := by
  rw [ReadError.message, caret_eq]

/-- **The fault of a text is its first one.**  Every line that is neither blank nor a comment has a
token, if it can be scanned.  If a text is no grammar, then all its lines are blank or comments,
or the message is the reason with the number of a line and a column, the line, and a caret under
the column; and the line is the first one with a fault, or else the place is the first one with a
non-terminal that is on no left side. -/
theorem parse_error (text : String) :
    (∀ cs ∈ linesOf text, Speaks cs → ∀ number tokens, Token.scan number cs = .ok tokens →
      tokens ≠ []) ∧
    ∀ e, parse text = .error e →
      (e = .noRules ∧ e.message = "Grammar has no production rules" ∧
        ∀ cs ∈ linesOf text, ¬ Speaks cs) ∨
      ∃ reason number column cs, e = .fault reason number column (String.ofList cs) ∧
        e.message = reason.message ++ " at " ++ toString number ++ ":" ++ toString column ++ "\n" ++
          String.ofList cs ++ "\n" ++
          String.ofList (List.replicate (column - 1) ' ' ++ ['^']) ∧
        PointsAt (linesOf text) reason number column cs := by
  refine ⟨fun cs _ hs number tokens hscan => tokens_ne_nil_of_speaks hs hscan, fun e h => ?_⟩
  rcases ofLines_error h with herror | ⟨rules, hread, ⟨rfl, rfl⟩ | hun⟩
  · obtain ⟨reason, number, column, cs, rfl, hpoints⟩ := exists_pointsAt_of_readLines herror
    exact Or.inr ⟨reason, number, column, cs, rfl, message_fault .., hpoints⟩
  · refine Or.inl ⟨rfl, rfl, fun cs hcs hspeaks => ?_⟩
    obtain ⟨k, r, hr, -⟩ := exists_read_of_mem hread hcs hspeaks
    exact absurd hr (by simp)
  · obtain ⟨reason, number, column, cs, rfl, hpoints⟩ := exists_pointsAt_of_unresolved? hread hun
    exact Or.inr ⟨reason, number, column, cs, rfl, message_fault .., hpoints⟩

/-- All lines can be read, but `u` is on no left side; it stands in the tenth column of the second
line. -/
theorem parse_error_of_reference :
    parse "s ---> A\nt ---> s u\n" = .error (.fault (.unresolved "u") 2 10 "t ---> s u") ∧
      PointsAt ["s ---> A".toList, "t ---> s u".toList, []] (.unresolved "u") 2 10
        "t ---> s u".toList := by
  have hparse : parse "s ---> A\nt ---> s u\n" =
      .error (.fault (.unresolved "u") 2 10 (String.ofList "t ---> s u".toList)) := by
    decide +kernel
  have hlines : linesOf "s ---> A\nt ---> s u\n" =
      ["s ---> A".toList, "t ---> s u".toList, []] := by decide +kernel
  rcases (parse_error _).2 _ hparse with ⟨hno, -⟩ | ⟨reason, number, column, cs, heq, -, hpoints⟩
  · exact absurd hno (by simp)
  · obtain ⟨rfl, rfl, rfl, htext⟩ := ReadError.fault.inj heq
    rw [hlines, ← String.ofList_injective htext] at hpoints
    exact ⟨hparse, hpoints⟩

/-- A scan fault comes before any fault of the rule on the line, and the caret is under it. -/
example : (parse "# x\ns ---> \x0b A |").mapError ReadError.message =
    .error "Unexpected char '\\x0b' at 2:8\ns ---> \x0b A |\n       ^" := by decide +kernel

end LRTables.Grammar
