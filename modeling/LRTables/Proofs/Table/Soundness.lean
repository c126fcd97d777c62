import LRTables.Proofs.Table.Driver

/-!
# What is accepted by reductions that retrace their way

The states of a stack are a way through the table: each was entered from the one below it,
over a symbol.  A reduction takes as many states away as its right side has symbols, and it
is right if they were entered over those symbols.  Then the symbols of the whole way derive
what was read.  States that were merged can be entered from states in which a shorter or
other right side was begun, and a reduction there retraces nothing.

* `ParseTable.Spells` — the symbols that the states of a stack were entered over.
* `ParseTable.Retracing` — the reduction at hand takes away what its right side entered.
* `ParseTable.eq_of_moves` — a state of an automaton of a grammar is entered over one
  symbol only.
* `ParseTable.Inv` — the invariant of the driver.
* `ParseTable.generates_of_retracing` — what is accepted so is generated.
-/

namespace LRTables.ParseTable

variable {g : Grammar} {first : FirstSets} {a : Automaton} {t : ParseTable}

/-! ## Ways -/

/-- Is there a cell that leads from one state over the symbol to the other? -/
def Moves (t : ParseTable) (p : Nat) (x : Symbol) (q : Nat) : Prop :=
  t.action? p x.name = some (moveTo x q)

/-- The states of a stack were entered over the symbols, the last of both first. -/
inductive Spells (t : ParseTable) : List Nat → List Symbol → Prop where
  /-- A state that nothing is known of. -/
  | single (q : Nat) : Spells t [q] []
  /-- A state is entered. -/
  | enter {q p : Nat} {below : List Nat} {x : Symbol} {γ : List Symbol} (hmove : t.Moves p x q)
      (rest : Spells t (p :: below) γ) : Spells t (q :: p :: below) (x :: γ)

/-- A stack has a state more than it has symbols. -/
theorem Spells.length {stack : List Nat} {γ : List Symbol} (h : t.Spells stack γ) :
    stack.length = γ.length + 1 := by
  induction h with
  | single q => rfl
  | enter _ _ ih => rw [List.length_cons, ih, List.length_cons]

/-- The upper part of a stack spells the last symbols. -/
theorem Spells.take {stack : List Nat} {γ : List Symbol} (h : t.Spells stack γ) (n : Nat) :
    t.Spells (stack.take (n + 1)) (γ.take n) := by
  induction h generalizing n with
  | single q =>
    rw [List.take_nil, List.take_succ_cons, List.take_nil]
    exact Spells.single q
  | @enter q p below x γ hmove rest ih =>
    cases n with
    | zero => exact Spells.single q
    | succ n =>
      have := ih n
      rw [List.take_succ_cons] at this
      rw [List.take_succ_cons, List.take_succ_cons, List.take_succ_cons]
      exact Spells.enter hmove this

/-- The lower part of a stack spells the other symbols. -/
theorem Spells.drop {stack : List Nat} {γ : List Symbol} (h : t.Spells stack γ) {n p : Nat}
    {low : List Nat} (hdrop : stack.drop n = p :: low) : t.Spells (p :: low) (γ.drop n) := by
  induction h generalizing n with
  | single q =>
    cases n with
    | zero =>
      rw [← hdrop]
      exact Spells.single q
    | succ n => simp at hdrop
  | enter hmove rest ih =>
    cases n with
    | zero =>
      rw [← hdrop]
      exact Spells.enter hmove rest
    | succ n => exact ih hdrop

/-! ## Retracing -/

/-- **The step at hand retraces its way**: a reduction takes away states that were entered
over its right side, and accepting leaves only the state that it began in. -/
def Retracing (t : ParseTable) (c : Configuration) : Prop :=
  ∀ q below name rest, c = ⟨q :: below, name :: rest⟩ →
    (∀ lhs rhs, t.action? q name = some (.reduce lhs rhs) →
      ∃ γ, t.Spells (c.stack.take (rhs.length + 1)) γ ∧ γ.map Symbol.name = rhs.reverse) ∧
    (t.action? q name = some .accept → below.length = 1)

/-! ## The automaton of a grammar -/

section Built

variable (hg : g.WellFormed) (hb : a.Built g first)

/-- What is entered over a symbol is entered by a transition over it. -/
theorem has_of_moves {start : String} {p q : Nat} {x : Symbol} (h : (of start a).Moves p x q) :
    a.Has p ⟨x, q⟩ := by
  rcases action?_cases h with ⟨⟨y, j⟩, hs, hname, hmove⟩ | ⟨i, -, -, -, hi⟩
  · have hsame : (⟨y, j⟩ : Transition) = ⟨x, q⟩ := by
      cases y <;> cases x <;> simp_all [moveTo]
    rwa [← hsame]
  · cases x <;> simp only [moveTo] at hi <;> split at hi <;> exact absurd hi (by simp)

include hg hb

/-- **A state is entered over one symbol only.** -/
theorem eq_of_moves {start : String} {p p' q : Nat} {x x' : Symbol}
    (h : (of start a).Moves p x q) (h' : (of start a).Moves p' x' q) : x = x' :=
  hb.symbol_eq_of_has hg (has_of_moves h) (has_of_moves h') rfl

theorem wellNamed_of_spells {start : String} {stack : List Nat} {γ : List Symbol}
    (h : (of start a).Spells stack γ) : ∀ x ∈ γ, x.WellNamed := by
  induction h with
  | single q => simp
  | enter hmove _ ih =>
    intro x hx
    rcases List.mem_cons.1 hx with rfl | hx
    · exact hb.wellNamed_of_has hg (has_of_moves hmove)
    · exact ih x hx

/-- A stack spells only one string. -/
theorem eq_of_spells {start : String} {stack : List Nat} {γ δ : List Symbol}
    (h : (of start a).Spells stack γ) (h' : (of start a).Spells stack δ) : γ = δ := by
  induction h generalizing δ with
  | single q =>
    cases h'
    rfl
  | enter hmove _ ih =>
    cases h' with
    | enter hmove' rest' => rw [eq_of_moves hg hb hmove hmove', ih rest']

end Built

/-! ## Runs -/

/-- A word has its end where the end marker first stands. -/
theorem eq_of_append_endMarker {w read rest : List String} (hw : endMarker ∉ w)
    (h : w ++ [endMarker] = read ++ endMarker :: rest) : read = w := by
  induction w generalizing read with
  | nil =>
    cases read with
    | nil => rfl
    | cons b read =>
      rw [List.nil_append, List.cons_append, List.cons.injEq] at h
      simp at h
  | cons b w ih =>
    cases read with
    | nil =>
      rw [List.cons_append, List.nil_append, List.cons.injEq] at h
      exact absurd (List.mem_cons_self ..) (h.1 ▸ hw)
    | cons c read =>
      rw [List.cons_append, List.cons_append, List.cons.injEq] at h
      rw [h.1, ih (fun hm => hw (List.mem_cons_of_mem _ hm)) h.2]

/-- **The invariant of the driver**: the stack is a way from state zero, and its symbols
derive what was read. -/
def Inv (g : Grammar) (t : ParseTable) (w : List String) (c : Configuration) : Prop :=
  ∃ γ read, t.Spells c.stack γ ∧ c.stack.getLast? = some 0 ∧ w ++ [endMarker] = read ++ c.input ∧
    g.Derives γ.reverse (read.map .terminal)

theorem inv_initial (g : Grammar) (t : ParseTable) (w : List String) :
    Inv g t w (.initial w) :=
  ⟨[], [], Spells.single 0, rfl, rfl, Relation.ReflTransGen.refl⟩

/-- Shifting keeps the invariant. -/
theorem Inv.shift {w : List String} {q j : Nat} {below : List Nat} {name : String}
    {rest : List String} (h : Inv g t w ⟨q :: below, name :: rest⟩)
    (hshift : t.action? q name = some (.shift j)) : Inv g t w ⟨j :: q :: below, rest⟩ := by
  obtain ⟨γ, read, hspells, hlast, hinput, hderives⟩ := h
  refine ⟨.terminal name :: γ, read ++ [name], Spells.enter hshift hspells, ?_, ?_, ?_⟩
  · rw [List.getLast?_cons_cons]
    exact hlast
  · simpa using hinput
  · rw [List.reverse_cons, List.map_append]
    exact hderives.append_right _

section Runs

variable (hg : g.WellFormed) (hb : a.Built g first)

include hg hb

/-- **A reduction is by a production of the grammar**, whose item is complete in the state with
the name as its look-ahead. -/
theorem exists_of_reduce {q : Nat} {name lhs : String} {rhs : List String}
    (h : (of g.startProduction.lhs a).action? q name = some (.reduce lhs rhs)) :
    ∃ p ∈ g, p.lhs = lhs ∧ p.rhsNames = rhs ∧
      .ofProduction p p.rhs.length name ∈ a.rulesOf q := by
  rcases action?_cases h with ⟨s, -, -, hmove⟩ | ⟨i, hi, hend, rfl, hi'⟩
  · cases hsymbol : s.symbol <;> simp [hsymbol, moveTo] at hmove
  · split at hi'
    · exact absurd hi' (by simp)
    · rename_i hnot
      obtain ⟨rfl, rfl⟩ := Action.reduce.inj hi'
      obtain ⟨γ, hv⟩ := hb.viable q i hi
      obtain ⟨hpos, hdot⟩ := hv.dot_eq hg hend
      by_cases hstart : i.lhs = g.startProduction.lhs
      · -- the start production is followed by the end of the input alone
        obtain rfl := hv.eq_seed_advance hg hstart hpos
        exact absurd ⟨hstart, rfl⟩ hnot
      · obtain ⟨p, hp, hlhs, hrhs⟩ := hv.isOf_of_ne hstart
        refine ⟨p, hp, hlhs.symm, by rw [Item.rhsNames, hrhs]; rfl, ?_⟩
        have hitem : Item.ofProduction p p.rhs.length i.look = i := by
          rw [Item.ofProduction, ← hlhs, ← hrhs, ← hdot]
        rw [hitem]
        exact hi

/-- An accepting cell is in a state with the complete item of the start production. -/
theorem mem_of_accept {q : Nat} {name : String}
    (h : (of g.startProduction.lhs a).action? q name = some .accept) :
    name = endMarker ∧ g.seed.advance ∈ a.rulesOf q := by
  rcases action?_cases h with ⟨s, -, -, hmove⟩ | ⟨i, hi, hend, rfl, hi'⟩
  · cases hsymbol : s.symbol <;> simp [hsymbol, moveTo] at hmove
  · split at hi'
    · rename_i hacc
      obtain ⟨γ, hv⟩ := hb.viable q i hi
      obtain rfl := hv.eq_seed_advance hg hacc.1 (hv.dot_eq hg hend).1
      exact ⟨hacc.2, hi⟩
    · exact absurd hi' (by simp)

/-- A reduction that retraces its way keeps the invariant. -/
theorem Inv.reduce (he : g.EpsilonFree) {w : List String} {q p j : Nat} {below low : List Nat}
    {name lhs : String} {rest rhs : List String} {γ' : List Symbol}
    (h : Inv g (of g.startProduction.lhs a) w ⟨q :: below, name :: rest⟩)
    (hreduce : (of g.startProduction.lhs a).action? q name = some (.reduce lhs rhs))
    (hdrop : (q :: below).drop rhs.length = p :: low)
    (hgoto : (of g.startProduction.lhs a).action? p lhs = some (.goto j))
    (hspells' : (of g.startProduction.lhs a).Spells ((q :: below).take (rhs.length + 1)) γ')
    (hnames : γ'.map Symbol.name = rhs.reverse) :
    Inv g (of g.startProduction.lhs a) w ⟨j :: p :: low, name :: rest⟩ := by
  obtain ⟨γ, read, hspells, hlast, hinput, hderives⟩ := h
  have hlow := hspells.drop hdrop
  -- what the retraced states were entered over is the right side
  have htake : γ.take rhs.length = γ' := eq_of_spells hg hb (hspells.take _) hspells'
  obtain ⟨r, hr, rfl, hrnames, -⟩ := exists_of_reduce hg hb hreduce
  have hbody : r.body = (γ.take rhs.length).reverse := by
    rw [he.body hr]
    refine Symbol.eq_of_map_name_eq (hg.wellNamed r hr) (fun x hx => ?_) ?_
    · exact wellNamed_of_spells hg hb hspells x (List.mem_of_mem_take (List.mem_reverse.1 hx))
    · rw [List.map_reverse, htake, hnames, List.reverse_reverse]
      exact hrnames
  refine ⟨.nonterminal r.lhs :: γ.drop rhs.length, read, Spells.enter hgoto hlow, ?_, hinput, ?_⟩
  · rw [List.getLast?_cons_cons, ← hdrop, List.getLast?_drop, hlast]
    have hlt : ¬ (q :: below).length ≤ rhs.length := by
      intro hle
      rw [List.drop_eq_nil_of_le hle] at hdrop
      exact absurd hdrop (by simp)
    rw [if_neg hlt]
  · have hstep := (Grammar.derives_body hr).append_left (γ.drop rhs.length).reverse
    rw [hbody, ← List.reverse_append, List.take_append_drop] at hstep
    rw [List.reverse_cons]
    exact hstep.trans hderives

/-- Where the driver accepts, with one state on top of state zero, the word was derived. -/
theorem Inv.accept {w : List String} (hw : endMarker ∉ w) {q : Nat} {below : List Nat}
    {name : String} {rest : List String}
    (h : Inv g (of g.startProduction.lhs a) w ⟨q :: below, name :: rest⟩)
    (haccept : (of g.startProduction.lhs a).action? q name = some .accept)
    (hbelow : below.length = 1) : g.Generates w := by
  obtain ⟨γ, read, hspells, hlast, hinput, hderives⟩ := h
  obtain ⟨p, rfl⟩ := List.length_eq_one_iff.1 hbelow
  obtain ⟨rfl, hitem⟩ := mem_of_accept hg hb haccept
  obtain rfl := eq_of_append_endMarker hw hinput
  cases hspells with
  | @enter _ _ _ x δ hmove hrest =>
    cases hrest
    -- the only symbol is the one behind which the dot of the item stands
    obtain ⟨y, hy, hname⟩ := hb.accessed p x.name q (has_of_moves hmove).edge _ hitem
      (Nat.succ_pos _)
    have hget : g.seed.advance.rhs[g.seed.advance.dot - 1]? = some (.nonterminal g.start) := rfl
    have hstart : x = .nonterminal g.start := by
      refine (hb.wellNamed_of_has hg (has_of_moves hmove)).eq_of_name_eq ?_ ?_
      · exact hg.wellNamed_augmented (List.mem_cons_self ..) (List.mem_cons_self ..)
      · rw [← hname, ← Option.some.inj (hget.symm.trans hy)]
    rw [hstart] at hderives
    exact hderives

/-- A step that retraces its way keeps the invariant. -/
theorem Inv.next (he : g.EpsilonFree) {w : List String} {c c' : Configuration}
    (h : Inv g (of g.startProduction.lhs a) w c)
    (hretracing : (of g.startProduction.lhs a).Retracing c)
    (hstep : (of g.startProduction.lhs a).step c = .next c') :
    Inv g (of g.startProduction.lhs a) w c' := by
  obtain ⟨q, below, name, rest, rfl, hcases⟩ := step_cases (by rw [hstep]; simp)
  rcases hcases with ⟨j, hshift, hnext⟩ |
    ⟨lhs, rhs, p, low, j, hreduce, hdrop, hgoto, hnext⟩ | ⟨-, hnext⟩
  · obtain rfl := Outcome.next.inj (hnext.symm.trans hstep)
    exact h.shift hshift
  · obtain rfl := Outcome.next.inj (hnext.symm.trans hstep)
    obtain ⟨γ', hspells', hnames⟩ := (hretracing q below name rest rfl).1 lhs rhs hreduce
    exact h.reduce hg hb he hreduce hdrop hgoto hspells' hnames
  · rw [hnext] at hstep
    exact absurd hstep (by simp)

/-- **What is accepted by reductions that retrace their way is generated.** -/
theorem generates_of_retracing (he : g.EpsilonFree) {w : List String} (hw : endMarker ∉ w)
    {c : Configuration} (h : Inv g (of g.startProduction.lhs a) w c)
    (hrun : (of g.startProduction.lhs a).AcceptsThrough
      (of g.startProduction.lhs a).Retracing c) : g.Generates w := by
  induction hrun with
  | accept hretracing hstep =>
    obtain ⟨q, below, name, rest, rfl, hcases⟩ := step_cases (by rw [hstep]; simp)
    rcases hcases with ⟨j, -, hnext⟩ | ⟨lhs, rhs, p, low, j, -, -, -, hnext⟩ | ⟨haccept, -⟩
    · rw [hnext] at hstep
      exact absurd hstep (by simp)
    · rw [hnext] at hstep
      exact absurd hstep (by simp)
    · exact h.accept hg hb hw haccept ((hretracing q below name rest rfl).2 haccept)
  | next hretracing hstep _ ih => exact ih (h.next hg hb he hretracing hstep)

end Runs

end LRTables.ParseTable
