import LRTables.Grammar.Reader
import LRTables.Item.Basic
import LRTables.Proofs.Outcome

/-!
# Well-formed grammars

What the reader promises of a grammar that it read: names of the right classes, right
sides that are not empty, the empty string only alone, and a production for every
non-terminal.  Everything that is built from a grammar rests on these facts alone.

* `Grammar.WellFormed` — the promises.
* `Grammar.wellFormed_of_parse` — the reader keeps them.
* `Symbol.WellNamed.eq_of_name_eq` — a name tells which symbol it stands for.
* `Grammar.startProduction` — the production that augmenting puts in front.
-/

namespace LRTables

/-! ## Names -/

/-- Is the name of a class that fits the kind of the symbol? -/
def Symbol.WellNamed : Symbol → Prop
  | .terminal n => n = epsilon ∨ Grammar.isTerminalName n = true
  | .nonterminal n => Grammar.isNonterminalName n = true

namespace Grammar

/-- A name has a first character, and all its characters are of its class. -/
theorem exists_head_of_isNonterminalName {n : String} (h : isNonterminalName n = true) :
    ∃ c ∈ n.toList, 'a' ≤ c ∧ c ≤ 'z' := by
  simp only [isNonterminalName, Bool.and_eq_true, List.all_eq_true, decide_eq_true_eq] at h
  cases hn : n.toList with
  | nil => simp [hn] at h
  | cons c cs =>
    refine ⟨c, List.mem_cons_self .., ?_⟩
    exact h.2 c (by rw [hn]; exact List.mem_cons_self ..)

theorem not_isTerminalName_of_isNonterminalName {n : String} (h : isNonterminalName n = true) :
    isTerminalName n = false := by
  obtain ⟨c, hc, hac, -⟩ := exists_head_of_isNonterminalName h
  by_contra ht
  rw [Bool.not_eq_false] at ht
  simp only [isTerminalName, Bool.and_eq_true, List.all_eq_true, decide_eq_true_eq] at ht
  have hcZ : c ≤ 'Z' := (ht.2 c hc).2
  have : ('a' : Char) ≤ 'Z' := Char.le_trans hac hcZ
  exact absurd this (by decide)

theorem ne_epsilon_of_isNonterminalName {n : String} (h : isNonterminalName n = true) :
    n ≠ epsilon := by
  rintro rfl
  exact absurd h (by decide)

/-- A primed name is none that a grammar text can hold. -/
theorem not_isNonterminalName_primed (n : String) : isNonterminalName (n ++ "'") = false := by
  by_contra h
  rw [Bool.not_eq_false] at h
  simp only [isNonterminalName, Bool.and_eq_true, List.all_eq_true, decide_eq_true_eq] at h
  have := h.2 '\'' (by simp)
  exact absurd this (by decide)

end Grammar

/-- **A name tells which symbol it stands for.** -/
theorem Symbol.WellNamed.eq_of_name_eq {x y : Symbol} (hx : x.WellNamed) (hy : y.WellNamed)
    (h : x.name = y.name) : x = y := by
  have clash : ∀ {n m : String}, (Symbol.nonterminal n).WellNamed → (Symbol.terminal m).WellNamed →
      n ≠ m := by
    rintro n m hn (rfl | hm) rfl
    · exact Grammar.ne_epsilon_of_isNonterminalName hn rfl
    · rw [Grammar.not_isTerminalName_of_isNonterminalName hn] at hm
      exact absurd hm (by simp)
  cases x with
  | terminal n =>
    cases y with
    | terminal m => exact congrArg Symbol.terminal h
    | nonterminal m => exact absurd h.symm (clash hy hx)
  | nonterminal n =>
    cases y with
    | terminal m => exact absurd h (clash hx hy)
    | nonterminal m => exact congrArg Symbol.nonterminal h

/-- Strings of well-named symbols are told apart by their names. -/
theorem Symbol.eq_of_map_name_eq {xs ys : List Symbol} (hx : ∀ x ∈ xs, x.WellNamed)
    (hy : ∀ y ∈ ys, y.WellNamed) (h : xs.map Symbol.name = ys.map Symbol.name) : xs = ys := by
  induction xs generalizing ys with
  | nil => exact (List.map_eq_nil_iff.1 h.symm).symm
  | cons x xs ih =>
    cases ys with
    | nil => simp at h
    | cons y ys =>
      rw [List.map_cons, List.map_cons, List.cons.injEq] at h
      have hxy : x = y := (hx x (by simp)).eq_of_name_eq (hy y (by simp)) h.1
      have hrest : xs = ys :=
        ih (fun z hz => hx z (by simp [hz])) (fun z hz => hy z (by simp [hz])) h.2
      rw [hxy, hrest]

namespace Grammar

/-! ## What the reader promises -/

/-- A grammar with names of the right classes, right sides that are not empty, the empty
string only alone, and a production for each of its non-terminals. -/
structure WellFormed (g : Grammar) : Prop where
  /-- There is a production. -/
  ne_nil : g ≠ []
  /-- Left sides are names of non-terminals. -/
  lhs : ∀ p ∈ g, isNonterminalName p.lhs = true
  /-- Right sides hold something. -/
  rhs_ne_nil : ∀ p ∈ g, p.rhs ≠ []
  /-- The symbols of right sides have names of their classes. -/
  wellNamed : ∀ p ∈ g, ∀ x ∈ p.rhs, x.WellNamed
  /-- The name of the empty string has no company. -/
  epsilon_alone : ∀ p ∈ g, .terminal epsilon ∈ p.rhs → p.rhs = [.terminal epsilon]
  /-- Every non-terminal on a right side is on some left side. -/
  defined : ∀ p ∈ g, ∀ n, .nonterminal n ∈ p.rhs → ∃ q ∈ g, q.lhs = n

theorem wellNamed_of_symbolOf? {word : String} {x : Symbol} (h : symbolOf? word = some x) :
    x.WellNamed := by
  unfold symbolOf? at h
  split at h
  · obtain rfl := Option.some.inj h
    exact Or.inl rfl
  · split at h
    · rename_i hn
      obtain rfl := Option.some.inj h
      exact hn
    · split at h
      · rename_i ht
        obtain rfl := Option.some.inj h
        exact Or.inr ht
      · exact absurd h (by simp)

/-- Every alternative that is read holds something, and its symbols have names of their
classes; and there is an alternative. -/
theorem readAlternatives_ok {tokens : List Token} {pending : List Occurrence} {last : Nat}
    {alternatives : List (List Occurrence)}
    (h : readAlternatives pending last tokens = .ok alternatives)
    (hp : ∀ o ∈ pending, o.1.WellNamed) :
    alternatives ≠ [] ∧ ∀ alt ∈ alternatives, alt ≠ [] ∧ ∀ o ∈ alt, o.1.WellNamed := by
  induction tokens generalizing pending last alternatives with
  | nil =>
    simp only [readAlternatives] at h
    split at h
    · exact absurd h (by simp)
    · rename_i hne
      obtain rfl := Except.ok.inj h
      refine ⟨by simp, fun alt halt => ?_⟩
      rw [List.mem_singleton] at halt
      subst halt
      exact ⟨by simpa using hne, fun o ho => hp o (List.mem_reverse.1 ho)⟩
  | cons t rest ih =>
    simp only [readAlternatives] at h
    split at h
    · split at h
      · exact absurd h (by simp)
      · rename_i hne
        obtain ⟨others, hrest, rfl⟩ := map_eq_ok_iff.1 h
        have hothers := ih hrest (by simp)
        refine ⟨by simp, fun alt halt => ?_⟩
        rcases List.mem_cons.1 halt with rfl | halt
        · exact ⟨by simpa using hne, fun o ho => hp o (List.mem_reverse.1 ho)⟩
        · exact hothers.2 alt halt
    · split at h
      · exact absurd h (by simp)
      · rename_i x hx
        refine ih h ?_
        intro o ho
        rcases List.mem_cons.1 ho with rfl | ho
        · exact wellNamed_of_symbolOf? hx
        · exact hp o ho

/-- Where no empty string is out of place, only alternatives of one symbol hold it. -/
theorem length_le_one_of_misplacedEpsilon? {alternatives : List (List Occurrence)}
    (h : misplacedEpsilon? alternatives = none) {alt : List Occurrence} (halt : alt ∈ alternatives)
    {o : Occurrence} (ho : o ∈ alt) (hname : o.1.name = epsilon) : alt.length ≤ 1 := by
  simp only [misplacedEpsilon?, List.findSome?_eq_none_iff] at h
  by_contra hlen
  have := h alt halt
  rw [if_neg hlen, List.findSome?_eq_none_iff] at this
  have := this o ho
  rw [if_pos hname] at this
  exact absurd this (by simp)

/-- The tokens of a rule: a name, the arrow, and the alternatives. -/
theorem exists_of_readRule {tokens : List Token} {lhs : String}
    {alternatives : List (List Occurrence)} (h : readRule tokens = .ok (lhs, alternatives)) :
    ∃ head second rest, tokens = head :: second :: rest ∧
      (head.kind = .word ∧ head.lexeme = lhs ∧ isNonterminalName lhs = true) ∧
      second.lexeme = arrow ∧ readAlternatives [] second.column rest = .ok alternatives ∧
      misplacedEpsilon? alternatives = none := by
  match tokens, h with
  | [], h => exact absurd h (by simp [readRule])
  | [_], h => exact absurd h (by simp [readRule])
  | [_, _], h => exact absurd h (by simp [readRule])
  | head :: second :: third :: rest, h =>
    simp only [readRule] at h
    split at h
    · exact absurd h (by simp)
    · rename_i hhead
      split at h
      · exact absurd h (by simp)
      · rename_i harrow
        obtain ⟨alts, hread, h⟩ := bind_eq_ok_iff.1 h
        split at h
        · exact absurd h (by simp)
        · rename_i heps
          simp only [Except.ok.injEq, Prod.mk.injEq] at h
          obtain ⟨rfl, rfl⟩ := h
          rw [not_or, Bool.not_eq_false] at hhead
          have hkind : head.kind = .word := by
            cases hk : head.kind with
            | bar => exact absurd hk hhead.1
            | word => rfl
          exact ⟨head, second, third :: rest, rfl, ⟨hkind, rfl, hhead.2⟩, not_not.1 harrow, hread,
            heps⟩

/-- What a line promises of the rule on it. -/
theorem readRule_ok {tokens : List Token} {lhs : String} {alternatives : List (List Occurrence)}
    (h : readRule tokens = .ok (lhs, alternatives)) :
    isNonterminalName lhs = true ∧ alternatives ≠ [] ∧
      (∀ alt ∈ alternatives, alt ≠ [] ∧ ∀ o ∈ alt, o.1.WellNamed) ∧
      misplacedEpsilon? alternatives = none := by
  obtain ⟨head, second, rest, -, ⟨-, -, hname⟩, -, hread, heps⟩ := exists_of_readRule h
  obtain ⟨hne, halts⟩ := readAlternatives_ok hread (by simp)
  exact ⟨hname, hne, halts, heps⟩

/-- The rule on a line keeps the line and its number, and has the sides that the tokens say. -/
theorem RuleLine.read_ok {number : Nat} {text : List Char} {r : RuleLine}
    (h : RuleLine.read number text = .ok r) :
    r.number = number ∧ r.text = text ∧ ∃ tokens, Token.scan number text = .ok tokens ∧
      readRule tokens = .ok (r.lhs, r.alternatives) := by
  obtain ⟨tokens, hscan, h⟩ := bind_eq_ok_iff.1 h
  obtain ⟨sides, hrule, h⟩ := bind_eq_ok_iff.1 h
  obtain rfl := Except.ok.inj h
  refine ⟨rfl, rfl, tokens, ?_, hrule⟩
  unfold scanLine at hscan
  split at hscan
  · exact absurd hscan (by simp)
  · rename_i tokens' hscan'
    rw [hscan', Except.ok.inj hscan]

/-- Every rule that is read stands on one of the lines. -/
theorem exists_read_of_mem_readLines {lines : List (List Char)} {number : Nat}
    {rules : List RuleLine} (h : readLines number lines = .ok rules) :
    ∀ r ∈ rules, ∃ n text, RuleLine.read n text = .ok r := by
  induction lines generalizing number rules with
  | nil =>
    obtain rfl := Except.ok.inj h
    simp
  | cons text rest ih =>
    simp only [readLines] at h
    split at h
    · exact ih h
    · split at h
      · exact absurd h (by simp)
      · rename_i r hr
        obtain ⟨others, hrest, rfl⟩ := map_eq_ok_iff.1 h
        intro r' hr'
        rcases List.mem_cons.1 hr' with rfl | hr'
        · exact ⟨number, text, hr⟩
        · exact ih hrest r' hr'

/-- Where nothing is unresolved, every non-terminal on the right sides is defined. -/
theorem mem_of_unresolved? {defined : List String} {rules : List RuleLine}
    (h : unresolved? defined rules = none) {r : RuleLine} (hr : r ∈ rules) {alt : List Occurrence}
    (halt : alt ∈ r.alternatives) {name : String} (hname : .nonterminal name ∈ alt.map Prod.fst) :
    name ∈ defined := by
  simp only [unresolved?, List.findSome?_eq_none_iff] at h
  obtain ⟨o, ho, hon⟩ := List.mem_map.1 hname
  have := h r hr alt halt o ho
  rw [hon] at this
  by_contra hnot
  simp [hnot] at this

/-- What the lines of a text promise of the grammar on them. -/
theorem ofLines_ok {lines : List (List Char)} {g : Grammar} (h : ofLines lines = .ok g) :
    ∃ rules, readLines 1 lines = .ok rules ∧ rules ≠ [] ∧
      unresolved? (rules.map RuleLine.lhs) rules = none ∧
      g = rules.flatMap RuleLine.productions := by
  obtain ⟨rules, hread, h⟩ := bind_eq_ok_iff.1 h
  refine ⟨rules, hread, ?_⟩
  by_cases hne : rules.isEmpty = true
  · simp [hne, throw, throwThe, MonadExceptOf.throw, bind, Except.bind] at h
  · simp only [hne] at h
    cases hun : unresolved? (rules.map RuleLine.lhs) rules with
    | some e => simp [hun, throw, throwThe, MonadExceptOf.throw] at h
    | none =>
      rw [hun] at h
      exact ⟨by simpa using hne, rfl, (Except.ok.inj h).symm⟩

/-- **The reader keeps its promises.** -/
theorem wellFormed_of_parse {text : String} {g : Grammar} (h : parse text = .ok g) :
    g.WellFormed := by
  obtain ⟨rules, hread, hne, hun, rfl⟩ := ofLines_ok h
  -- what holds of the rule on each line
  have rule : ∀ r ∈ rules, isNonterminalName r.lhs = true ∧ r.alternatives ≠ [] ∧
      (∀ alt ∈ r.alternatives, alt ≠ [] ∧ ∀ o ∈ alt, o.1.WellNamed) ∧
      misplacedEpsilon? r.alternatives = none := by
    intro r hr
    obtain ⟨n, line, hline⟩ := exists_read_of_mem_readLines hread r hr
    obtain ⟨-, -, tokens, -, htokens⟩ := RuleLine.read_ok hline
    exact readRule_ok htokens
  -- and where each production comes from
  have origin : ∀ p ∈ rules.flatMap RuleLine.productions, ∃ r ∈ rules, ∃ alt ∈ r.alternatives,
      p = ⟨r.lhs, alt.map Prod.fst, some r.number⟩ := by
    intro p hp
    obtain ⟨r, hr, hpr⟩ := List.mem_flatMap.1 hp
    obtain ⟨alt, halt, rfl⟩ := List.mem_map.1 hpr
    exact ⟨r, hr, alt, halt, rfl⟩
  refine ⟨?_, ?_, ?_, ?_, ?_, ?_⟩
  · obtain ⟨r, others, rfl⟩ := List.exists_cons_of_ne_nil hne
    obtain ⟨alt, alts, halts⟩ := List.exists_cons_of_ne_nil (rule r (by simp)).2.1
    simp [RuleLine.productions, halts]
  · intro p hp
    obtain ⟨r, hr, alt, halt, rfl⟩ := origin p hp
    exact (rule r hr).1
  · intro p hp
    obtain ⟨r, hr, alt, halt, rfl⟩ := origin p hp
    simpa using ((rule r hr).2.2.1 alt halt).1
  · intro p hp x hx
    obtain ⟨r, hr, alt, halt, rfl⟩ := origin p hp
    obtain ⟨o, ho, rfl⟩ := List.mem_map.1 hx
    exact ((rule r hr).2.2.1 alt halt).2 o ho
  · intro p hp hx
    obtain ⟨r, hr, alt, halt, rfl⟩ := origin p hp
    obtain ⟨o, ho, hoe⟩ := List.mem_map.1 hx
    have hlen : alt.length ≤ 1 :=
      length_le_one_of_misplacedEpsilon? (rule r hr).2.2.2 halt ho (by rw [hoe]; rfl)
    match alt, hlen, ho with
    | [o'], _, ho =>
      rw [List.mem_singleton] at ho
      subst ho
      simp [hoe]
  · intro p hp n hn
    obtain ⟨r, hr, alt, halt, rfl⟩ := origin p hp
    obtain ⟨r', hr', rfl⟩ := List.mem_map.1 (mem_of_unresolved? hun hr halt hn)
    obtain ⟨alt', alts, halts⟩ := List.exists_cons_of_ne_nil (rule r' hr').2.1
    refine ⟨⟨r'.lhs, alt'.map Prod.fst, some r'.number⟩, ?_, rfl⟩
    exact List.mem_flatMap.2 ⟨r', hr', by simp [RuleLine.productions, halts]⟩

theorem mem_nonterminalNames_iff {xs : List Symbol} {n : String} :
    n ∈ nonterminalNames xs ↔ .nonterminal n ∈ xs := by
  simp only [nonterminalNames, List.mem_map, List.mem_filter]
  constructor
  · rintro ⟨x, ⟨hx, hkind⟩, rfl⟩
    cases x with
    | terminal a => exact absurd hkind (by simp)
    | nonterminal a => exact hx
  · intro h
    exact ⟨_, ⟨h, rfl⟩, rfl⟩

/-! ## The start -/

/-- The start symbol: the left side of the first production. -/
def start (g : Grammar) : String := (g.head?.map Production.lhs).getD ""

/-- The production that augmenting puts in front. -/
def startProduction (g : Grammar) : Production := ⟨g.start ++ "'", [.nonterminal g.start], none⟩

/-- A grammar with its start production in front. -/
def augmented (g : Grammar) : Grammar := g.startProduction :: g

theorem augment_of_ne_nil {g : Grammar} (h : g ≠ []) : g.augment = .ok g.augmented := by
  obtain ⟨p, rest, rfl⟩ := List.exists_cons_of_ne_nil h
  rfl

/-- The item that everything begins with. -/
def seed (g : Grammar) : Item := .ofProduction g.startProduction 0 endMarker

theorem startItem_augmented (g : Grammar) : g.augmented.startItem = .ok g.seed := rfl

namespace WellFormed

variable {g : Grammar}

/-- The start symbol is on a left side. -/
theorem exists_start (hg : g.WellFormed) : ∃ p ∈ g, p.lhs = g.start := by
  obtain ⟨p, rest, rfl⟩ := List.exists_cons_of_ne_nil hg.ne_nil
  exact ⟨p, by simp, rfl⟩

/-- Every non-terminal of the grammar is on some left side. -/
theorem exists_production (hg : g.WellFormed) {n : String} (hn : n ∈ g.nonterminals) :
    ∃ p ∈ g, p.lhs = n := by
  obtain ⟨p, hp, hn⟩ := List.mem_flatMap.1 hn
  rcases List.mem_cons.1 hn with rfl | hn
  · exact ⟨p, hp, rfl⟩
  · exact hg.defined p hp n (mem_nonterminalNames_iff.1 hn)

/-- The start production's own left side is on no left side of the grammar. -/
theorem lhs_ne_startProduction (hg : g.WellFormed) {p : Production} (hp : p ∈ g) :
    p.lhs ≠ g.startProduction.lhs := by
  intro h
  have := hg.lhs p hp
  rw [h, startProduction, not_isNonterminalName_primed] at this
  exact absurd this (by simp)

theorem wellNamed_augmented (hg : g.WellFormed) {p : Production} (hp : p ∈ g.augmented)
    {x : Symbol} (hx : x ∈ p.rhs) : x.WellNamed := by
  rcases List.mem_cons.1 hp with rfl | hp
  · obtain rfl := List.mem_singleton.1 hx
    obtain ⟨q, hq, hlhs⟩ := hg.exists_start
    show isNonterminalName g.start = true
    rw [← hlhs]
    exact hg.lhs q hq
  · exact hg.wellNamed p hp x hx

/-- No right side holds the start production's left side. -/
theorem nonterminal_ne_startProduction (hg : g.WellFormed) {p : Production} (hp : p ∈ g.augmented)
    {n : String} (hn : .nonterminal n ∈ p.rhs) : n ≠ g.startProduction.lhs := by
  rintro rfl
  have : isNonterminalName g.startProduction.lhs = true := hg.wellNamed_augmented hp hn
  rw [startProduction, not_isNonterminalName_primed] at this
  exact absurd this (by simp)

/-- Every non-terminal on a right side of the augmented grammar is on a left side of the
grammar itself. -/
theorem defined_augmented (hg : g.WellFormed) {p : Production} (hp : p ∈ g.augmented)
    {n : String} (hn : .nonterminal n ∈ p.rhs) : ∃ q ∈ g, q.lhs = n := by
  rcases List.mem_cons.1 hp with rfl | hp
  · obtain rfl : n = g.start := by simpa [startProduction] using hn
    exact hg.exists_start
  · exact hg.defined p hp n hn

end WellFormed

/-! ## Grammars without the empty string -/

/-- No alternative is the empty string. -/
def EpsilonFree (g : Grammar) : Prop := ∀ p ∈ g, p.isEpsilon = false

instance (g : Grammar) : Decidable g.EpsilonFree :=
  inferInstanceAs (Decidable (∀ p ∈ g, p.isEpsilon = false))

/-- Without the empty string every terminal has a name in upper case. -/
theorem EpsilonFree.isTerminalName {g : Grammar} (he : g.EpsilonFree) (hg : g.WellFormed)
    {p : Production} (hp : p ∈ g) {n : String} (hn : .terminal n ∈ p.rhs) :
    isTerminalName n = true := by
  rcases hg.wellNamed p hp _ hn with rfl | h
  · have := he p hp
    rw [Production.isEpsilon, hg.epsilon_alone p hp hn] at this
    exact absurd this (by decide)
  · exact h

end Grammar

end LRTables
