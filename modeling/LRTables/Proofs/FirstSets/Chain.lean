import LRTables.Proofs.FirstSets.Stable

/-!
# The chain of the passes

The sets after each pass form a chain: no pass moves a key or a name, every pass but the last adds
a name to some list, and the last one leaves everything as it is, so that no further pass would add
anything.  When to stop can be told without comparing the sets.  A pass adds its names one by one,
and of each it knows whether the name was new; noting that some name was new is noting that the
sets are others than at the start of the pass.

* `FirstSets.Noted` — sets while names are added one by one, and the note.
* `FirstSets.Noted.pass_eq` — a pass that adds names one by one is a pass, and its note is right.
* `FirstSets.Grows.exists_longer` — sets that grow and change have a list that got longer.
* `FirstSets.Link`, `FirstSets.Chain` — one pass among the others, and all of them.
* `FirstSets.chain_of_passes` — the passes over any list of productions that come to an end.
-/

namespace LRTables.FirstSets

/-! ## Adding names -/

theorem add_nil (first : FirstSets) (lhs : String) : first.add lhs [] = first := by
  refine OrderedMap.eq_of_get?_eq (keys_add first lhs []) fun n => ?_
  rw [get?_add]
  split
  · simp
  · rfl

theorem add_cons (first : FirstSets) (lhs a : String) (new : List String) :
    first.add lhs (a :: new) = (first.add lhs [a]).add lhs new := by
  refine OrderedMap.eq_of_get?_eq (by simp only [keys_add]) fun n => ?_
  simp only [get?_add]
  split
  · rw [Option.map_map]
    rfl
  · rfl

/-- A name that is there already is not added. -/
theorem add_of_mem {first : FirstSets} {lhs a : String} {names : List String}
    (h : first.get? lhs = some names) (ha : a ∈ names) : first.add lhs [a] = first := by
  refine OrderedMap.eq_of_get?_eq (keys_add first lhs [a]) fun n => ?_
  rw [get?_add]
  split
  · rename_i hn
    subst hn
    simp [h, OrderedMap.pushDistinct_of_mem ha]
  · rfl

/-- A name that is not there goes to the end. -/
theorem add_of_not_mem {first : FirstSets} {lhs a : String} {names : List String}
    (h : first.get? lhs = some names) (ha : a ∉ names) :
    first.add lhs [a] = first.insert lhs (names ++ [a]) := by
  rw [add, OrderedMap.modify_of_some h]
  simp [pushDistinct, ha]

/-- Where there is no list, nothing is added. -/
theorem add_of_none {first : FirstSets} {lhs : String} (h : first.get? lhs = none)
    (new : List String) : first.add lhs new = first :=
  OrderedMap.modify_of_none h

/-- What is added but for the empty string does not tell whether the empty string is there. -/
theorem epsilon_mem_add_iff {first : FirstSets} {n : String} {names : List String}
    (h : first.get? n = some names) (lhs : String) (new : List String) :
    ∃ names', (first.add lhs (new.filter fun a => a ≠ epsilon)).get? n = some names' ∧
      (epsilon ∈ names' ↔ epsilon ∈ names) := by
  rw [get?_add, h]
  split
  · refine ⟨_, rfl, ?_⟩
    rw [mem_appendDistinct]
    simp
  · exact ⟨names, rfl, Iff.rfl⟩

theorem Grows.count_le {a b : FirstSets} (h : Grows a b) : a.count ≤ b.count := by
  rcases h.eq_or_count_lt with rfl | h
  · exact Nat.le_refl _
  · exact Nat.le_of_lt h

/-! ## Names one by one -/

/-- Sets to which names are added one by one, and whether one of these was new. -/
structure Noted where
  /-- The sets. -/
  sets : FirstSets
  /-- Was a name new? -/
  changed : Bool

namespace Noted

/-- A name for the set of `lhs`.  If it is there already, nothing happens; otherwise it goes to the
end, and that is noted. -/
def push (lhs : String) (t : Noted) (a : String) : Noted :=
  match t.sets.get? lhs with
  | none => t
  | some names => if a ∈ names then t else ⟨t.sets.insert lhs (names ++ [a]), true⟩

/-- The symbols of a right side.  The names of a non-terminal are those that it has when reading
comes to it, and whether it can vanish is asked after they were added. -/
def scan (lhs : String) : Noted → List Symbol → Except Fault Noted
  | t, [] => .ok t
  | t, .terminal a :: _ => .ok (t.push lhs a)
  | t, .nonterminal b :: rest =>
    match t.sets.get? b with
    | none => .error (.undefinedNonterminal b)
    | some names =>
      let t' := names.foldl (fun t a => if a = epsilon then t else t.push lhs a) t
      if (t'.sets.get? b).any (epsilon ∈ ·) then scan lhs t' rest else .ok t'

/-- A production. -/
def visit (t : Noted) (p : Production) : Except Fault Noted :=
  if p.isEpsilon then .ok (t.push p.lhs epsilon) else scan p.lhs t p.rhs

/-- **A pass that adds its names one by one.**  Nothing is noted at its start. -/
def pass (g : Grammar) (first : FirstSets) : Except Fault Noted := g.foldlM visit ⟨first, false⟩

/-- The right note: whether the sets are others than at the start. -/
def since (start first : FirstSets) : Noted := ⟨first, decide (first ≠ start)⟩

variable {start first : FirstSets}

theorem push_since (h : Grows start first) (lhs a : String) :
    (since start first).push lhs a = since start (first.add lhs [a]) := by
  unfold push
  split
  · rename_i hnone
    have hnone : first.get? lhs = none := hnone
    rw [add_of_none hnone]
  · rename_i names hnames
    have hnames : first.get? lhs = some names := hnames
    split
    · rename_i ha
      rw [add_of_mem hnames ha]
    · rename_i ha
      rw [add_of_not_mem hnames ha]
      -- one name more than there were, and no fewer than at the start
      have hcount : count (first.insert lhs (names ++ [a])) = first.count + 1 := by
        have hweight := OrderedMap.weight_insert (w := List.length) (names ++ [a]) hnames
        rw [List.length_append, List.length_singleton] at hweight
        unfold count
        omega
      have hne : first.insert lhs (names ++ [a]) ≠ start := by
        intro heq
        rw [heq] at hcount
        have := h.count_le
        omega
      simp [since, hne]

theorem pushAll_since (h : Grows start first) (lhs : String) (names : List String) :
    names.foldl (fun t a => if a = epsilon then t else t.push lhs a) (since start first) =
      since start (first.add lhs (names.filter fun a => a ≠ epsilon)) := by
  induction names generalizing first with
  | nil => rw [List.filter_nil, add_nil, List.foldl_nil]
  | cons a names ih =>
    rw [List.foldl_cons]
    by_cases ha : a = epsilon
    · rw [if_pos ha, ih h, List.filter_cons_of_neg (by simpa using ha)]
    · rw [if_neg ha, push_since h, ih (h.trans (grows_add first lhs [a])),
        List.filter_cons_of_pos (by simpa using ha), add_cons first lhs a (names.filter _)]

theorem scan_since (h : Grows start first) (lhs : String) (xs : List Symbol) :
    scan lhs (since start first) xs = since start <$> FirstSets.scan lhs first xs := by
  induction xs generalizing first with
  | nil => rfl
  | cons x rest ih =>
    cases x with
    | terminal a => simp only [scan, FirstSets.scan, push_since h, Functor.map, Except.map]
    | nonterminal b =>
      cases hb : first.get? b with
      | none => simp only [scan, FirstSets.scan, since, hb, Functor.map, Except.map]
      | some names =>
        obtain ⟨names', hnames', heps⟩ := epsilon_mem_add_iff hb lhs names
        have hgrows := h.trans (grows_add first lhs (names.filter fun a => a ≠ epsilon))
        have hsets : ∀ next, (since start next).sets = next := fun _ => rfl
        simp only [scan, FirstSets.scan, hb, pushAll_since h, hsets, hnames',
          Option.any_some, decide_eq_true_eq, heps]
        split
        · exact ih hgrows
        · rfl

theorem visit_since (h : Grows start first) (p : Production) :
    visit (since start first) p = since start <$> FirstSets.visit first p := by
  unfold visit FirstSets.visit
  split
  · rw [push_since h]
    rfl
  · exact scan_since h p.lhs p.rhs

/-- **A pass that adds its names one by one is a pass**, and what it notes is whether the sets are
others than they were. -/
theorem pass_eq (g : Grammar) (start : FirstSets) :
    pass g start = since start <$> FirstSets.pass g start := by
  have key : ∀ first, Grows start first →
      g.foldlM visit (since start first) = since start <$> FirstSets.pass g first := by
    induction g with
    | nil => exact fun first _ => rfl
    | cons p g ih =>
      intro first h
      rw [List.foldlM_cons, visit_since h, FirstSets.pass, List.foldlM_cons]
      cases hvisit : FirstSets.visit first p with
      | error e => rfl
      | ok next => exact ih next (h.trans (grows_visit hvisit))
  have hstart : since start start = ⟨start, false⟩ := by simp [since]
  rw [pass, ← hstart, key start (Grows.refl start)]

end Noted

/-! ## Lists that get longer -/

/-- Sets that grow and change have a list that got longer at its end. -/
theorem Grows.exists_longer {a b : FirstSets} (h : Grows a b) (hne : b ≠ a) :
    ∃ n old new, a.get? n = some old ∧ b.get? n = some new ∧ old <+: new ∧
      old.length < new.length := by
  have hentries : a.entries ≠ b.entries := fun heq => hne (OrderedMap.eq_of_entries_eq heq).symm
  simp only [OrderedMap.get?_eq_some_iff]
  unfold Grows at h
  generalize a.entries = as at *
  generalize b.entries = bs at *
  induction h with
  | nil => exact absurd rfl hentries
  | @cons e e' es es' h _ ih =>
    obtain ⟨n, old⟩ := e
    obtain ⟨n', new⟩ := e'
    obtain ⟨rfl, hpre⟩ : n = n' ∧ old <+: new := h
    by_cases hlen : old.length < new.length
    · exact ⟨n, old, new, List.mem_cons_self .., List.mem_cons_self .., hpre, hlen⟩
    · obtain rfl : old = new := hpre.eq_of_length_le (by omega)
      obtain ⟨m, old', new', hold, hnew, hlonger⟩ := ih fun heq => hentries (by rw [heq])
      exact ⟨m, old', new', List.mem_cons_of_mem _ hold, List.mem_cons_of_mem _ hnew, hlonger⟩

/-! ## The passes -/

/-- **One pass among the others**: from the sets `a` to the sets `b`, with `after` still to come. -/
structure Link (g : Grammar) (a b : FirstSets) (after : List FirstSets) : Prop where
  /-- The keys stay in their order, and every list is a prefix of what becomes of it. -/
  grows : Grows a b
  /-- A pass that others follow makes some list longer. -/
  longer : after ≠ [] → ∃ n old new, a.get? n = some old ∧ b.get? n = some new ∧ old <+: new ∧
    old.length < new.length
  /-- The last pass changes nothing. -/
  same : after = [] → b = a
  /-- If the names are added one by one, some name is new exactly if others follow. -/
  noted : Noted.pass g a = .ok ⟨b, !after.isEmpty⟩

/-- **The chain of the passes**, with the sets after each of them. -/
structure Chain (g : Grammar) (passes : List FirstSets) : Prop where
  /-- At the start there is an empty list for each left side, in the order of first occurrence. -/
  start : (initial g).keys = appendDistinct [] (g.map Production.lhs) ∧
    ∀ n names, (initial g).get? n = some names → names = []
  /-- The keys are the same after every pass, and no list has a name twice. -/
  lists : ∀ sets ∈ passes, sets.keys = (initial g).keys ∧
    ∀ n names, sets.get? n = some names → names.Nodup
  /-- From the start on, each pass makes of the sets before it those behind it. -/
  links : ∀ before a b after, initial g :: passes = before ++ a :: b :: after → Link g a b after
  /-- There is a last pass; what it leaves is what is computed, and a further pass adds nothing. -/
  last : ∃ last, passes.getLast? = some last ∧ compute g = .ok last ∧ pass g last = .ok last

variable {g : Grammar}

theorem link_of_pass {a b : FirstSets} {after : List FirstSets} (h : pass g a = .ok b)
    (hlast : b ≠ a ↔ after ≠ []) : Link g a b after where
  grows := grows_pass h
  longer := fun hafter => (grows_pass h).exists_longer (hlast.2 hafter)
  same := fun hafter => not_not.1 fun hne => hlast.1 hne hafter
  noted := by
    have hnote : decide (b ≠ a) = !after.isEmpty := by
      rw [Bool.eq_iff_iff]
      simpa using hlast
    rw [Noted.pass_eq, h, ← hnote]
    rfl

/-- **Every pass is a link**: it calls for another one exactly if it changed something. -/
theorem link_of_settles {first last : FirstSets} {passes : List FirstSets}
    (h : Settles g first passes last) {before : List FirstSets} {a b : FirstSets}
    {after : List FirstSets} (hsplit : first :: passes = before ++ a :: b :: after) :
    Link g a b after := by
  induction h generalizing before with
  | @last first last shown here quiet =>
    obtain ⟨hpass, rfl⟩ := round_eq_ok_iff.1 here
    cases before with
    | nil =>
      simp only [List.nil_append, List.cons.injEq] at hsplit
      obtain ⟨rfl, rfl, rfl⟩ := hsplit
      exact link_of_pass hpass (by simpa using quiet)
    | cons x before =>
      have hlength := congrArg List.length hsplit
      simp only [List.length_cons, List.length_append, List.length_nil] at hlength
      omega
  | @more first next last shown passes here call rest ih =>
    obtain ⟨hpass, rfl⟩ := round_eq_ok_iff.1 here
    cases before with
    | nil =>
      simp only [List.nil_append, List.cons.injEq] at hsplit
      obtain ⟨rfl, rfl, rfl⟩ := hsplit
      have hne : passes ≠ [] := by
        rintro rfl
        cases rest
      exact link_of_pass hpass ⟨fun _ => hne, fun _ => call⟩
    | cons x before =>
      simp only [List.cons_append, List.cons.injEq] at hsplit
      exact ih hsplit.2

/-- What every pass leaves is sound. -/
theorem sound_of_settles {first last : FirstSets} {passes : List FirstSets} (hs : Sound g first)
    (h : Settles g first passes last) : ∀ sets ∈ passes, Sound g sets := by
  induction h with
  | last here _ =>
    obtain ⟨hpass, rfl⟩ := round_eq_ok_iff.1 here
    exact List.forall_mem_singleton.2 (hs.pass (List.Subset.refl g) hpass)
  | more here _ _ ih =>
    obtain ⟨hpass, rfl⟩ := round_eq_ok_iff.1 here
    have hnext := hs.pass (List.Subset.refl g) hpass
    exact List.forall_mem_cons.2 ⟨hnext, ih hnext⟩

/-- **The passes form a chain.**  For every list of productions on which the passes come to an end,
they begin with an empty list for each left side; no pass moves a key or repeats a name; every list
is a prefix of the one that the next pass makes of it; every pass but the last makes some list
longer, which is what the new names tell, and the last one changes nothing; and from what it leaves
a further pass leads nowhere else. -/
theorem chain_of_passes (g : Grammar) (passes : List FirstSets)
    (h : FirstSets.passes g = .ok passes) : Chain g passes := by
  rcases passes_cases g with ⟨passes', last, hpasses, hcompute, hsettles, -, -⟩ | ⟨n, herror, -⟩
  · obtain rfl : passes' = passes := Except.ok.inj (hpasses.symm.trans h)
    obtain ⟨hlast, hstable⟩ := stable_of_settles hsettles
    refine ⟨⟨keys_initial g, fun n names hn => ?_⟩, fun sets hsets => ⟨?_, ?_⟩,
      fun before a b after hsplit => link_of_settles hsettles hsplit,
      last, hlast, hcompute, hstable⟩
    · obtain ⟨p, -, hp⟩ := List.mem_map.1 (OrderedMap.mem_of_get?_ofList hn)
      exact (Prod.mk.inj hp).2.symm
    · exact keys_of_settles hsettles sets hsets
    · exact fun n names hn => (sound_of_settles sound_initial hsettles sets hsets n names hn).1
  · -- no sets are computed only where a pass is stopped
    simp only [compute, h, bind, Except.bind, pure, Except.pure] at herror
    exact absurd herror (by simp)

/-- That `t` can vanish is found in the first pass, and that `s` begins with `A` in the second one,
together with the `A` of `t`, which goes behind the name of the empty string. -/
theorem chain_of_passes_of_three :
    ∃ passes, FirstSets.passes [⟨"s", [.nonterminal "t", .nonterminal "u"], none⟩,
        ⟨"t", [.nonterminal "u"], none⟩, ⟨"u", [.terminal "A"], none⟩,
        ⟨"t", [.terminal epsilon], none⟩] = .ok passes ∧
      passes.map OrderedMap.entries = [[("s", []), ("t", ["*"]), ("u", ["A"])],
        [("s", ["A"]), ("t", ["*", "A"]), ("u", ["A"])],
        [("s", ["A"]), ("t", ["*", "A"]), ("u", ["A"])]] ∧
      Chain [⟨"s", [.nonterminal "t", .nonterminal "u"], none⟩,
        ⟨"t", [.nonterminal "u"], none⟩, ⟨"u", [.terminal "A"], none⟩,
        ⟨"t", [.terminal epsilon], none⟩] passes := by
  obtain ⟨passes, hpasses, hentries⟩ := exists_ok_of_any
    (e := FirstSets.passes [⟨"s", [.nonterminal "t", .nonterminal "u"], none⟩,
      ⟨"t", [.nonterminal "u"], none⟩, ⟨"u", [.terminal "A"], none⟩,
      ⟨"t", [.terminal epsilon], none⟩])
    (P := fun passes : List FirstSets =>
      decide (passes.map OrderedMap.entries = [[("s", []), ("t", ["*"]), ("u", ["A"])],
        [("s", ["A"]), ("t", ["*", "A"]), ("u", ["A"])],
        [("s", ["A"]), ("t", ["*", "A"]), ("u", ["A"])]]))
    (by decide +kernel)
  exact ⟨passes, hpasses, of_decide_eq_true hentries, chain_of_passes _ _ hpasses⟩

end LRTables.FirstSets
