import LRTables.Proofs.Grammar.Derivation

/-!
# The names that a non-terminal begins with

The least family of names that contains what the passes over a grammar add: the name of
the empty string for a production that is just that, and otherwise the terminals of the
symbols that a right side shows, one after the other as long as the symbols before them
are non-terminals with the empty string among their names.

* `Grammar.First` — the least family.
* `Grammar.ComesTo`, `Grammar.Misses` — how far a right side is read, and what is then missed.
* `Grammar.First.derives` — a name in it begins what the non-terminal derives.
* `Grammar.first_epsilon_iff` — the name of the empty string is not handed on.
* `Grammar.Opens` — the names that the family gives a string of symbols, and
  `Grammar.opens_of_derives`, where these are all the terminals that the string can begin with.
* `Grammar.OwnsEmpty` — who derives the empty string has it as an alternative.
* `Grammar.shows_of_derives` — without the empty string the first symbol tells them all.
* `Grammar.exists_first_of_derives` — so a non-terminal that derives a word has a name.
-/

namespace LRTables.Grammar

variable {g : Grammar}

/-- The least family of names that is closed under what productions add. -/
inductive First (g : Grammar) : String → String → Prop where
  /-- A production that is just the empty string. -/
  | empty {p : Production} (h : p ∈ g) (he : p.isEpsilon = true) : First g p.lhs epsilon
  /-- A terminal behind non-terminals that can vanish. -/
  | terminal {p : Production} {pre : List String} {a : String} {rest : List Symbol} (h : p ∈ g)
      (he : p.isEpsilon = false) (hr : p.rhs = pre.map .nonterminal ++ .terminal a :: rest)
      (hpre : ∀ b ∈ pre, First g b epsilon) : First g p.lhs a
  /-- A name of a non-terminal behind non-terminals that can vanish. -/
  | nonterminal {p : Production} {pre : List String} {b a : String} {rest : List Symbol}
      (h : p ∈ g) (he : p.isEpsilon = false)
      (hr : p.rhs = pre.map .nonterminal ++ .nonterminal b :: rest)
      (hpre : ∀ b ∈ pre, First g b epsilon) (hb : First g b a) (ha : a ≠ epsilon) :
      First g p.lhs a

/-- A non-terminal with a name in its set has a production. -/
theorem First.exists_production {n a : String} (h : First g n a) : ∃ p ∈ g, p.lhs = n := by
  cases h with
  | @empty p hp _ => exact ⟨p, hp, rfl⟩
  | @terminal p _ _ _ hp _ _ _ => exact ⟨p, hp, rfl⟩
  | @nonterminal p _ _ _ _ hp _ _ _ _ _ => exact ⟨p, hp, rfl⟩

/-- Reading the right side of a production comes to the symbols: those in front of them are
non-terminals that can all vanish. -/
def ComesTo (g : Grammar) (p : Production) (xs : List Symbol) : Prop :=
  ∃ pre : List String, p.rhs = pre.map .nonterminal ++ xs ∧ ∀ b ∈ pre, First g b epsilon

theorem comesTo_rhs (g : Grammar) (p : Production) : g.ComesTo p p.rhs :=
  ⟨[], rfl, by simp⟩

/-- Behind a non-terminal that can vanish reading goes on. -/
theorem ComesTo.next {p : Production} {b : String} {xs : List Symbol}
    (h : g.ComesTo p (.nonterminal b :: xs)) (hb : First g b epsilon) : g.ComesTo p xs := by
  obtain ⟨pre, hr, hpre⟩ := h
  refine ⟨pre ++ [b], by simp [hr], ?_⟩
  intro c hc
  rcases List.mem_append.1 hc with hc | hc
  · exact hpre c hc
  · rw [List.mem_singleton.1 hc]
    exact hb

/-- Does reading a right side come to the non-terminal? -/
def LooksUp (g : Grammar) (n : String) : Prop :=
  ∃ p ∈ g, p.isEpsilon = false ∧ ∃ rest, g.ComesTo p (.nonterminal n :: rest)

/-- Does reading a right side come to the non-terminal, although no production is one for it? -/
def Misses (g : Grammar) (n : String) : Prop := g.LooksUp n ∧ ∀ q ∈ g, q.lhs ≠ n

/-- Where every non-terminal has a production, none is missed. -/
theorem not_misses (hdef : ∀ p ∈ g, ∀ n, .nonterminal n ∈ p.rhs → ∃ q ∈ g, q.lhs = n)
    (n : String) : ¬ g.Misses n := by
  rintro ⟨⟨p, hp, -, rest, pre, hr, -⟩, hmissed⟩
  obtain ⟨q, hq, hlhs⟩ := hdef p hp n (by simp [hr])
  exact hmissed q hq hlhs

/-- Every name in the family is one that a FIRST set can hold. -/
theorem First.mem_terminals {n a : String} (h : First g n a) : a = epsilon ∨ a ∈ g.terminals := by
  induction h with
  | empty h he => exact Or.inl rfl
  | @terminal p pre a rest h he hr hpre _ =>
    refine Or.inr (List.mem_flatMap.2 ⟨p, h, ?_⟩)
    rw [terminalNames, hr, List.mem_map]
    exact ⟨.terminal a, by simp, rfl⟩
  | nonterminal h he hr hpre hb ha _ ih => exact ih

/-- A terminal on a right side is one of the terminals of the grammar. -/
theorem mem_terminals_of_mem_rhs {p : Production} (hp : p ∈ g) {a : String}
    (ha : .terminal a ∈ p.rhs) : a ∈ g.terminals :=
  List.mem_flatMap.2 ⟨p, hp, List.mem_map.2 ⟨.terminal a, List.mem_filter.2 ⟨ha, rfl⟩, rfl⟩⟩

/-- Every name in the family is that of a terminal on a right side, the name of the empty
string too. -/
theorem First.mem_terminals_of_wellFormed (hg : g.WellFormed) {n a : String} (h : First g n a) :
    a ∈ g.terminals := by
  rcases h.mem_terminals with rfl | ha
  · cases h with
    | @empty p hp he =>
      -- the right side is one symbol with that name, and no non-terminal has it
      unfold Production.isEpsilon at he
      split at he
      · rename_i x hrhs
        have hx : x ∈ p.rhs := by simp [hrhs]
        cases x with
        | terminal m =>
          obtain rfl : m = epsilon := beq_iff_eq.1 he
          exact mem_terminals_of_mem_rhs hp hx
        | nonterminal m =>
          have hname : isNonterminalName m = true := hg.wellNamed p hp _ hx
          exact absurd (beq_iff_eq.1 he) (ne_epsilon_of_isNonterminalName hname)
      · exact absurd he (by simp)
    | terminal hp he hr hpre => exact mem_terminals_of_mem_rhs hp (by simp [hr])
    | nonterminal hp he hr hpre hb ha => exact absurd rfl ha
  · exact ha

/-! ## Names begin what is derived -/

theorem derives_nil_of_forall {pre : List String}
    (h : ∀ b ∈ pre, g.Derives [.nonterminal b] []) : g.Derives (pre.map .nonterminal) [] := by
  induction pre with
  | nil => exact Relation.ReflTransGen.refl
  | cons b pre ih =>
    have hb : g.Derives ([.nonterminal b] ++ pre.map .nonterminal) (pre.map .nonterminal) := by
      simpa using (h b (by simp)).append_right (pre.map .nonterminal)
    exact hb.trans (ih fun c hc => h c (by simp [hc]))

/-- **A name of a non-terminal begins something that it derives**, and the name of the
empty string says that it derives nothing. -/
theorem First.derives (hg : g.WellFormed) {n a : String} (h : First g n a) :
    (a = epsilon → g.Derives [.nonterminal n] []) ∧
      (a ≠ epsilon → ∃ rest, g.Derives [.nonterminal n] (.terminal a :: rest)) := by
  induction h with
  | @empty p h he =>
    refine ⟨fun _ => ?_, fun hne => absurd rfl hne⟩
    have hbody : p.body = [] := by simp [Production.body, he]
    simpa [hbody] using derives_body h
  | @terminal p pre a rest h he hr hpre ih =>
    have hbody : p.body = p.rhs := by simp [Production.body, he]
    refine ⟨fun ha => ?_, fun _ => ⟨rest, ?_⟩⟩
    · -- the empty string stands alone on a right side, so this one is just that
      subst ha
      have halone := hg.epsilon_alone p h (by simp [hr])
      rw [Production.isEpsilon, halone] at he
      exact absurd he (by decide)
    · have h1 := derives_body h
      rw [hbody, hr] at h1
      have h2 := (derives_nil_of_forall fun b hb => (ih b hb).1 rfl).append_right
        (.terminal a :: rest)
      exact h1.trans h2
  | @nonterminal p pre b a rest h he hr hpre hb ha ihpre ihb =>
    have hbody : p.body = p.rhs := by simp [Production.body, he]
    refine ⟨fun ha' => absurd ha' ha, fun _ => ?_⟩
    obtain ⟨more, hmore⟩ := ihb.2 ha
    refine ⟨more ++ rest, ?_⟩
    have h1 := derives_body h
    rw [hbody, hr] at h1
    have h2 := (derives_nil_of_forall fun b hb => (ihpre b hb).1 rfl).append_right
      (.nonterminal b :: rest)
    have h3 : g.Derives (.nonterminal b :: rest) (.terminal a :: (more ++ rest)) := by
      simpa using hmore.append_right rest
    exact (h1.trans h2).trans h3

/-! ## What a string opens with -/

/-- The name of the empty string stands on no right side that something is derived with. -/
theorem epsilon_not_mem_body (hg : g.WellFormed) {p : Production} (hp : p ∈ g) :
    .terminal epsilon ∉ p.body := by
  intro h
  unfold Production.body at h
  split at h
  · exact absurd h (by simp)
  · rename_i he
    have halone := hg.epsilon_alone p hp h
    rw [Production.isEpsilon, halone] at he
    exact he rfl

/-- **The name of the empty string is in the sets of those alone that have it as an
alternative.** -/
theorem first_epsilon_iff (hg : g.WellFormed) (n : String) :
    First g n epsilon ↔ ∃ p ∈ g, p.lhs = n ∧ p.isEpsilon = true := by
  constructor
  · intro h
    cases h with
    | @empty p hp he => exact ⟨p, hp, rfl, he⟩
    | @terminal p pre _ rest hp he hr hpre =>
      have hbody : .terminal epsilon ∈ p.body := by simp [Production.body, he, hr]
      exact absurd hbody (epsilon_not_mem_body hg hp)
    | nonterminal hp he hr hpre hb ha => exact absurd rfl ha
  · rintro ⟨p, hp, rfl, he⟩
    exact First.empty hp he

/-- The names that a string of symbols opens with: those of its first symbol, and those of the
rest if the first symbol is a non-terminal with the empty string among its names. -/
def Opens (g : Grammar) : List Symbol → String → Prop
  | [], _ => False
  | .terminal b :: _, a => a = b
  | .nonterminal n :: rest, a => (First g n a ∧ a ≠ epsilon) ∨ (First g n epsilon ∧ Opens g rest a)

/-- Are all the symbols non-terminals with the empty string among their names? -/
def Vanishes (g : Grammar) (xs : List Symbol) : Prop :=
  ∀ x ∈ xs, ∃ n, x = .nonterminal n ∧ First g n epsilon

/-- What two strings open with together. -/
theorem opens_append_iff {xs ys : List Symbol} {a : String} :
    Opens g (xs ++ ys) a ↔ Opens g xs a ∨ (Vanishes g xs ∧ Opens g ys a) := by
  induction xs with
  | nil => simp [Opens, Vanishes]
  | cons x xs ih =>
    cases x with
    | terminal b => simp [Opens, Vanishes]
    | nonterminal n =>
      have hvanishes : Vanishes g (.nonterminal n :: xs) ↔ First g n epsilon ∧ Vanishes g xs := by
        simp [Vanishes]
      rw [List.cons_append, Opens, ih, hvanishes, Opens]
      rw [and_or_left, ← or_assoc, and_assoc]

/-- A string that opens with a name holds it, or a non-terminal with it behind some that can
vanish. -/
theorem Opens.exists_split {xs : List Symbol} {a : String} (h : Opens g xs a) :
    ∃ (pre : List String) (x : Symbol) (rest : List Symbol),
      xs = pre.map .nonterminal ++ x :: rest ∧ (∀ b ∈ pre, First g b epsilon) ∧
        (x = .terminal a ∨ ∃ n, x = .nonterminal n ∧ First g n a ∧ a ≠ epsilon) := by
  induction xs with
  | nil => exact absurd h id
  | cons x xs ih =>
    cases x with
    | terminal b => exact ⟨[], _, xs, rfl, by simp, Or.inl (congrArg _ (Eq.symm h))⟩
    | nonterminal n =>
      rcases h with hn | ⟨hn, hrest⟩
      · exact ⟨[], _, xs, rfl, by simp, Or.inr ⟨n, rfl, hn⟩⟩
      · obtain ⟨pre, x, rest, rfl, hpre, hx⟩ := ih hrest
        refine ⟨n :: pre, x, rest, rfl, ?_, hx⟩
        intro b hb
        rcases List.mem_cons.1 hb with rfl | hb
        · exact hn
        · exact hpre b hb

/-- What a right side opens with is in the set of the left side. -/
theorem first_of_opens {p : Production} (hp : p ∈ g) (he : p.isEpsilon = false) {a : String}
    (h : Opens g p.rhs a) : First g p.lhs a := by
  obtain ⟨pre, x, rest, hr, hpre, rfl | ⟨n, rfl, hn, ha⟩⟩ := h.exists_split
  · exact First.terminal hp he hr hpre
  · exact First.nonterminal hp he hr hpre hn ha

/-- Symbols that can all vanish derive nothing. -/
theorem Vanishes.derives (hg : g.WellFormed) {xs : List Symbol} (h : Vanishes g xs) :
    g.Derives xs [] := by
  induction xs with
  | nil => exact Relation.ReflTransGen.refl
  | cons x xs ih =>
    obtain ⟨n, rfl, hn⟩ := h x (List.mem_cons_self ..)
    have hrest := ih fun y hy => h y (List.mem_cons_of_mem _ hy)
    exact (((hn.derives hg).1 rfl).append_right xs).trans hrest

/-- Has every non-terminal that derives the empty string an alternative that is just that? -/
def OwnsEmpty (g : Grammar) : Prop :=
  ∀ n, g.Derives [.nonterminal n] [] → ∃ p ∈ g, p.lhs = n ∧ p.isEpsilon = true

/-- Where one step shows who can vanish: a symbol of which something vanishing is derived is a
non-terminal with the empty string among its names. -/
theorem Yields.vanishes
    (hstep : ∀ p ∈ g, p.isEpsilon = false → Vanishes g p.rhs → First g p.lhs epsilon)
    {xs : List Symbol} {w : List String} (h : g.Yields xs w) (hw : w = []) : Vanishes g xs := by
  induction h with
  | nil => simp [Vanishes]
  | terminal a _ _ => exact absurd hw (by simp)
  | @nonterminal p xs u w hp _ _ ihbody ihrest =>
    obtain ⟨hu, hrest⟩ := List.append_eq_nil_iff.1 hw
    have hlhs : First g p.lhs epsilon := by
      cases he : p.isEpsilon with
      | true => exact First.empty hp he
      | false =>
        have hbody := ihbody hu
        rw [Production.body, he, if_neg (by simp)] at hbody
        exact hstep p hp he hbody
    intro x hx
    rcases List.mem_cons.1 hx with rfl | hx
    · exact ⟨p.lhs, rfl, hlhs⟩
    · exact ihrest hrest x hx

/-- **Whether all that derive the empty string have it as an alternative** can be read off the
productions: one whose symbols all have it is one of a non-terminal that has it. -/
theorem ownsEmpty_iff (hg : g.WellFormed) : g.OwnsEmpty ↔
    ∀ p ∈ g, (∀ x ∈ p.rhs, ∃ q ∈ g, q.isEpsilon = true ∧ x = .nonterminal q.lhs) →
      ∃ q ∈ g, q.lhs = p.lhs ∧ q.isEpsilon = true := by
  have hvanishes : ∀ xs, Vanishes g xs ↔
      ∀ x ∈ xs, ∃ q ∈ g, q.isEpsilon = true ∧ x = .nonterminal q.lhs := by
    intro xs
    refine forall₂_congr fun x _ => ?_
    simp only [first_epsilon_iff hg]
    constructor
    · rintro ⟨n, rfl, q, hq, rfl, he⟩
      exact ⟨q, hq, he, rfl⟩
    · rintro ⟨q, hq, he, rfl⟩
      exact ⟨q.lhs, rfl, q, hq, rfl, he⟩
  constructor
  · intro hown p hp hall
    cases he : p.isEpsilon with
    | true => exact ⟨p, hp, rfl, he⟩
    | false =>
      have hbody : p.body = p.rhs := by simp [Production.body, he]
      have hnil : g.Derives p.rhs [] := ((hvanishes p.rhs).2 hall).derives hg
      rw [← hbody] at hnil
      exact hown p.lhs ((derives_body hp).trans hnil)
  · intro hstep n h
    have hyields : g.Yields [.nonterminal n] [] := yields_of_derives h
    have hfront : Vanishes g [.nonterminal n] := by
      refine hyields.vanishes (fun p hp _ hall => ?_) rfl
      exact (first_epsilon_iff hg p.lhs).2 (hstep p hp ((hvanishes p.rhs).1 hall))
    obtain ⟨m, hm, hfirst⟩ := hfront _ (List.mem_singleton.2 rfl)
    obtain rfl := Symbol.nonterminal.inj hm
    exact (first_epsilon_iff hg n).1 hfirst

/-- A replacement opens nothing new, if what derives the empty string says so. -/
theorem Step.opens (hg : g.WellFormed) (hown : g.OwnsEmpty) {xs ys : List Symbol}
    (h : g.Step xs ys) {a : String} (ha : Opens g ys a) : Opens g xs a := by
  obtain @⟨u, v, p, hp⟩ := h
  rw [List.append_assoc, opens_append_iff, opens_append_iff] at ha
  apply opens_append_iff.2
  rcases ha with hu | ⟨hu, hbody | ⟨hbody, hv⟩⟩
  · exact Or.inl hu
  · -- the name is opened by the body, which is then the right side
    have hne : a ≠ epsilon := by
      rintro rfl
      obtain ⟨pre, x, rest, hr, -, rfl | ⟨n, rfl, -, hne⟩⟩ := hbody.exists_split
      · exact epsilon_not_mem_body hg hp (by simp [hr])
      · exact hne rfl
    have he : p.isEpsilon = false := by
      by_contra he
      rw [Bool.not_eq_false] at he
      simp [Production.body, he, Opens] at hbody
    rw [Production.body, he, if_neg (by simp)] at hbody
    exact Or.inr ⟨hu, Or.inl ⟨first_of_opens hp he hbody, hne⟩⟩
  · -- the name is opened behind a body that vanishes, and the left side with it
    have hnil : g.Derives [.nonterminal p.lhs] [] := (derives_body hp).trans (hbody.derives hg)
    have hlhs := (first_epsilon_iff hg p.lhs).2 (hown p.lhs hnil)
    exact Or.inr ⟨hu, Or.inr ⟨hlhs, hv⟩⟩

/-- **A terminal that begins something derived is one that the string opens with**, if every
non-terminal that derives the empty string has it as an alternative. -/
theorem opens_of_derives (hg : g.WellFormed) (hown : g.OwnsEmpty) {xs rest : List Symbol}
    {a : String} (h : g.Derives xs (.terminal a :: rest)) : Opens g xs a := by
  induction h using Relation.ReflTransGen.head_induction_on with
  | refl => rfl
  | head hstep _ ih => exact hstep.opens hg hown ih

/-- So a terminal that begins something that a non-terminal derives is in its set. -/
theorem first_of_derives (hg : g.WellFormed) (hown : g.OwnsEmpty) {n a : String}
    {rest : List Symbol} (h : g.Derives [.nonterminal n] (.terminal a :: rest)) :
    First g n a := by
  rcases opens_of_derives hg hown h with ⟨hn, -⟩ | ⟨-, hnone⟩
  · exact hn
  · exact absurd hnone id

/-! ## Without the empty string -/

/-- Without the empty string its name is in no set. -/
theorem First.ne_epsilon (he : g.EpsilonFree) (hg : g.WellFormed) {n a : String}
    (h : First g n a) : a ≠ epsilon := by
  rintro rfl
  obtain ⟨p, hp, -, hempty⟩ := (first_epsilon_iff hg n).1 h
  exact absurd hempty (by simp [he p hp])

/-- Without the empty string every name in a set is one of a terminal. -/
theorem First.isTerminalName (he : g.EpsilonFree) (hg : g.WellFormed) {n a : String}
    (h : First g n a) : isTerminalName a = true := by
  rcases h.mem_terminals with ha | ha
  · exact absurd ha (h.ne_epsilon he hg)
  · obtain ⟨p, hp, hap⟩ := List.mem_flatMap.1 ha
    obtain ⟨x, hx, rfl⟩ := List.mem_map.1 hap
    rw [List.mem_filter] at hx
    cases x with
    | terminal m => exact he.isTerminalName hg hp hx.1
    | nonterminal m => exact absurd hx.2 (by simp)

/-- Without the empty string nothing derives it. -/
theorem EpsilonFree.ownsEmpty (he : g.EpsilonFree) (hg : g.WellFormed) : g.OwnsEmpty := by
  intro n h
  have hyields : g.Yields [.nonterminal n] [] := yields_of_derives h
  exact absurd rfl (hyields.ne_nil he hg (by simp))

/-- What a string of symbols shows in front: a terminal its name, a non-terminal the
names of its set. -/
def Shows (g : Grammar) (xs : List Symbol) (a : String) : Prop :=
  (∃ rest, xs = .terminal a :: rest) ∨ ∃ n rest, xs = .nonterminal n :: rest ∧ First g n a

/-- **Without the empty string a terminal that begins something derived is shown.** -/
theorem shows_of_derives (he : g.EpsilonFree) (hg : g.WellFormed) {xs rest : List Symbol}
    {a : String} (h : g.Derives xs (.terminal a :: rest)) : Shows g xs a := by
  have hopens := opens_of_derives hg (he.ownsEmpty hg) h
  cases xs with
  | nil => exact absurd hopens id
  | cons x xs =>
    cases x with
    | terminal b =>
      obtain rfl : a = b := hopens
      exact Or.inl ⟨xs, rfl⟩
    | nonterminal n =>
      rcases hopens with ⟨hn, -⟩ | ⟨hempty, -⟩
      · exact Or.inr ⟨n, xs, rfl, hn⟩
      · exact absurd rfl (hempty.ne_epsilon he hg)

/-- Without the empty string a non-terminal that derives a word has a name in its set. -/
theorem exists_first_of_derives (he : g.EpsilonFree) (hg : g.WellFormed) {n : String}
    {w : List String} (h : g.Derives [.nonterminal n] (w.map .terminal)) : ∃ a, First g n a := by
  have hne : w ≠ [] := (yields_of_derives h).ne_nil he hg (by simp)
  obtain ⟨a, w', rfl⟩ := List.exists_cons_of_ne_nil hne
  exact ⟨a, first_of_derives hg (he.ownsEmpty hg) h⟩

/-- What a string yields begins with something that the string shows. -/
theorem Yields.shows (he : g.EpsilonFree) (hg : g.WellFormed) {xs : List Symbol} {a : String}
    {w : List String} (h : g.Yields xs (a :: w)) : Shows g xs a :=
  shows_of_derives he hg h.derives

end LRTables.Grammar
