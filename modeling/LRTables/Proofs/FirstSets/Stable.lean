import LRTables.Proofs.FirstSets.Growth
import LRTables.Proofs.Grammar.First
import LRTables.Proofs.Rounds
import Mathlib.Data.List.Perm.Subperm

/-!
# The stable FIRST sets

The passes over a grammar add only names of the least family, and the sets that a pass
leaves as they are contain the whole family.  Between the two there is room for as many
passes as there are names to add, so the bound of the passes cuts nothing off.  Only a
non-terminal that reading comes to and that has no production stops them.

* `FirstSets.Sound` — lists without repetitions, with names of the least family.
* `FirstSets.pass_error` — what stops a pass.
* `FirstSets.mem_of_first` — stable sets contain the least family.
* `FirstSets.Settles` — the passes from some sets on, until one adds nothing.
* `FirstSets.passes_cases` — the passes come to an end or are stopped.
* `FirstSets.compute_cases` — what the computation gives for any list of productions.
-/

namespace LRTables.FirstSets

variable {g : Grammar}

/-! ## Soundness -/

/-- Every list is without repetitions, and its names are in the least family. -/
def Sound (g : Grammar) (first : FirstSets) : Prop :=
  ∀ n names, first.get? n = some names → names.Nodup ∧ ∀ a ∈ names, g.First n a

theorem Sound.add {first : FirstSets} (hs : Sound g first) {lhs : String} {new : List String}
    (hnew : ∀ a ∈ new, g.First lhs a) : Sound g (first.add lhs new) := by
  intro n names hn
  rw [get?_add] at hn
  split at hn
  · rename_i hlhs
    subst hlhs
    obtain ⟨old, hold, rfl⟩ := Option.map_eq_some_iff.1 hn
    obtain ⟨hnodup, hfirst⟩ := hs lhs old hold
    refine ⟨nodup_appendDistinct new hnodup, fun a ha => ?_⟩
    rcases mem_appendDistinct.1 ha with ha | ha
    · exact hfirst a ha
    · exact hnew a ha
  · exact hs n names hn

/-- What a non-terminal that reading comes to has in its set may be added. -/
theorem Sound.addNames {p : Production} (hp : p ∈ g) (he : p.isEpsilon = false) {b : String}
    {rest : List Symbol} (hto : g.ComesTo p (.nonterminal b :: rest)) {first : FirstSets}
    (hs : Sound g first) {names : List String} (hb : first.get? b = some names) :
    Sound g (first.add p.lhs (names.filter fun a => a ≠ epsilon)) := by
  obtain ⟨pre, hr, hpre⟩ := hto
  refine hs.add fun a ha => ?_
  rw [List.mem_filter, decide_eq_true_eq] at ha
  exact Grammar.First.nonterminal hp he hr hpre ((hs b names hb).2 a ha.1) ha.2

/-- Reading the rest of a right side, behind symbols that can all vanish, keeps soundness. -/
theorem Sound.scan {p : Production} (hp : p ∈ g) (he : p.isEpsilon = false) {xs : List Symbol}
    (hto : g.ComesTo p xs) {first next : FirstSets} (hs : Sound g first)
    (h : FirstSets.scan p.lhs first xs = .ok next) : Sound g next := by
  induction xs generalizing first with
  | nil =>
    obtain rfl := Except.ok.inj h
    exact hs
  | cons x rest ih =>
    cases x with
    | terminal a =>
      obtain rfl := Except.ok.inj h
      obtain ⟨pre, hr, hpre⟩ := hto
      refine hs.add fun a' ha' => ?_
      rw [List.mem_singleton.1 ha']
      exact Grammar.First.terminal hp he hr hpre
    | nonterminal b =>
      simp only [FirstSets.scan] at h
      split at h
      · exact absurd h (by simp)
      · rename_i names hb
        have hadd := hs.addNames hp he hto hb
        split at h
        · rename_i heps
          exact ih (hto.next ((hs b names hb).2 epsilon heps)) hadd h
        · obtain rfl := Except.ok.inj h
          exact hadd

theorem Sound.visit {p : Production} (hp : p ∈ g) {first next : FirstSets} (hs : Sound g first)
    (h : FirstSets.visit first p = .ok next) : Sound g next := by
  unfold FirstSets.visit at h
  split at h
  · rename_i he
    obtain rfl := Except.ok.inj h
    refine hs.add fun a ha => ?_
    rw [List.mem_singleton] at ha
    subst ha
    exact Grammar.First.empty hp he
  · rename_i he
    exact Sound.scan hp (by simpa using he) (g.comesTo_rhs p) hs h

/-- A pass over some of the productions keeps soundness. -/
theorem Sound.pass {part : Grammar} (hsub : part ⊆ g) {first next : FirstSets}
    (hs : Sound g first) (h : FirstSets.pass part first = .ok next) : Sound g next := by
  induction part generalizing first with
  | nil =>
    obtain rfl := Except.ok.inj h
    exact hs
  | cons p part ih =>
    obtain ⟨mid, hv, hrest⟩ := pass_cons h
    exact ih (fun q hq => hsub (List.mem_cons_of_mem _ hq))
      (hs.visit (hsub (List.mem_cons_self ..)) hv) hrest

/-- Sound sets hold each of the names that can be in them at most once for each key. -/
theorem Sound.count_le {first : FirstSets} (hs : Sound g first) {possible : List String}
    (hpossible : ∀ n a, g.First n a → a ∈ possible) :
    first.count ≤ first.size * possible.length := by
  refine OrderedMap.weight_le fun n names hn => ?_
  obtain ⟨hnodup, hfirst⟩ := hs n names hn
  exact (hnodup.subperm fun a ha => hpossible n a (hfirst a ha)).length_le

theorem mem_candidates {n a : String} (h : g.First n a) : a ∈ candidates g := by
  rcases h.mem_terminals with rfl | ht
  · exact List.mem_cons_self ..
  · exact List.mem_cons_of_mem _ ht

/-! ## What stops a pass -/

/-- Reading a right side stops only at a non-terminal without a set. -/
theorem scan_error {p : Production} (hp : p ∈ g) (he : p.isEpsilon = false) {xs : List Symbol}
    (hto : g.ComesTo p xs) {first : FirstSets} (hs : Sound g first) {e : Fault}
    (h : scan p.lhs first xs = .error e) :
    ∃ n, e = .undefinedNonterminal n ∧ g.LooksUp n ∧ n ∉ first.keys := by
  induction xs generalizing first with
  | nil => exact absurd h (by simp [scan])
  | cons x rest ih =>
    cases x with
    | terminal a => exact absurd h (by simp [scan])
    | nonterminal b =>
      simp only [scan] at h
      split at h
      · rename_i hb
        obtain rfl := Except.error.inj h
        exact ⟨b, rfl, ⟨p, hp, he, rest, hto⟩, (first.get?_eq_none_iff b).1 hb⟩
      · rename_i names hb
        split at h
        · rename_i heps
          have hnext := hto.next ((hs b names hb).2 epsilon heps)
          obtain ⟨n, rfl, hlook, hkeys⟩ := ih hnext (hs.addNames hp he hto hb) h
          rw [keys_add] at hkeys
          exact ⟨n, rfl, hlook, hkeys⟩
        · exact absurd h (by simp)

theorem visit_error {p : Production} (hp : p ∈ g) {first : FirstSets} (hs : Sound g first)
    {e : Fault} (h : visit first p = .error e) :
    ∃ n, e = .undefinedNonterminal n ∧ g.LooksUp n ∧ n ∉ first.keys := by
  unfold visit at h
  split at h
  · exact absurd h (by simp)
  · rename_i he
    exact scan_error hp (by simpa using he) (g.comesTo_rhs p) hs h

/-- **A pass over some of the productions stops only at a non-terminal without a set.** -/
theorem pass_error {part : Grammar} (hsub : part ⊆ g) {first : FirstSets} (hs : Sound g first)
    {e : Fault} (h : pass part first = .error e) :
    ∃ n, e = .undefinedNonterminal n ∧ g.LooksUp n ∧ n ∉ first.keys := by
  induction part generalizing first with
  | nil => exact absurd h (by simp [pass, pure, Except.pure])
  | cons p part ih =>
    have hp : p ∈ g := hsub (List.mem_cons_self ..)
    rw [pass, List.foldlM_cons] at h
    cases hv : visit first p with
    | error e' =>
      rw [hv] at h
      obtain rfl : e' = e := Except.error.inj h
      exact visit_error hp hs hv
    | ok mid =>
      rw [hv] at h
      obtain ⟨n, rfl, hlook, hkeys⟩ :=
        ih (fun q hq => hsub (List.mem_cons_of_mem _ hq)) (hs.visit hp hv) h
      rw [(grows_visit hv).keys] at hkeys
      exact ⟨n, rfl, hlook, hkeys⟩

/-! ## Stable sets are complete -/

theorem mem_of_add_eq {first : FirstSets} {lhs : String} {new names : List String}
    (h : first.add lhs new = first) (hn : first.get? lhs = some names) {a : String}
    (ha : a ∈ new) : a ∈ names := by
  have hget := get?_add first lhs lhs new
  rw [h, if_pos rfl, hn, Option.map_some] at hget
  rw [Option.some.inj hget]
  exact mem_appendDistinct.2 (Or.inr ha)

/-- The names that a symbol adds: a terminal its own, a non-terminal those of its set but
for the empty string. -/
def Adds (first : FirstSets) : Symbol → String → Prop
  | .terminal b, a => a = b
  | .nonterminal b, a => a ≠ epsilon ∧ ∃ names, first.get? b = some names ∧ a ∈ names

/-- If reading a right side adds nothing, so does reading what is left of it behind symbols that
can all vanish. -/
theorem scan_rest_of_eq {lhs : String} {first : FirstSets} {pre : List String} {xs : List Symbol}
    (hpre : ∀ b ∈ pre, ∃ old, first.get? b = some old ∧ epsilon ∈ old)
    (h : scan lhs first (pre.map .nonterminal ++ xs) = .ok first) :
    scan lhs first xs = .ok first := by
  induction pre with
  | nil => exact h
  | cons b pre ih =>
    obtain ⟨old, hb, heps⟩ := hpre b (List.mem_cons_self ..)
    refine ih (fun c hc => hpre c (List.mem_cons_of_mem _ hc)) ?_
    simp only [List.map_cons, List.cons_append, scan, hb, heps, if_true] at h
    have hadd : first.add lhs (old.filter fun a => a ≠ epsilon) = first :=
      ((grows_add first lhs _).antisymm (grows_scan h)).symm
    rwa [hadd] at h

/-- If reading some symbols adds nothing, then what the first of them adds is there already. -/
theorem mem_of_scan_eq {lhs : String} {first : FirstSets} {names : List String}
    (hn : first.get? lhs = some names) {x : Symbol} {rest : List Symbol}
    (h : scan lhs first (x :: rest) = .ok first) {a : String} (ha : Adds first x a) :
    a ∈ names := by
  cases x with
  | terminal b =>
    obtain rfl : a = b := ha
    exact mem_of_add_eq (Except.ok.inj h) hn (by simp)
  | nonterminal b =>
    obtain ⟨hane, old, hb, ha⟩ := ha
    simp only [scan, hb] at h
    have hadd : first.add lhs (old.filter fun a => a ≠ epsilon) = first := by
      have hgrows := grows_add first lhs (old.filter fun a => a ≠ epsilon)
      split at h
      · exact ((hgrows.antisymm (grows_scan h))).symm
      · exact Except.ok.inj h
    exact mem_of_add_eq hadd hn (List.mem_filter.2 ⟨ha, by simpa using hane⟩)

/-- What is left of a right side, behind symbols that can all vanish, adds nothing to stable
sets. -/
theorem scan_of_stable {first : FirstSets} (hstable : pass g first = .ok first) {p : Production}
    (hp : p ∈ g) (he : p.isEpsilon = false) {pre : List String} {xs : List Symbol}
    (hr : p.rhs = pre.map .nonterminal ++ xs)
    (hpre : ∀ b ∈ pre, ∃ old, first.get? b = some old ∧ epsilon ∈ old) :
    scan p.lhs first xs = .ok first := by
  have hv := visit_of_pass_eq hstable p hp
  rw [visit, he, if_neg (by simp), hr] at hv
  exact scan_rest_of_eq hpre hv

/-- **Stable sets contain the least family.** -/
theorem mem_of_first {first : FirstSets} (hstable : pass g first = .ok first)
    (hkeys : ∀ p ∈ g, p.lhs ∈ first.keys) {n a : String} (h : g.First n a) :
    ∃ names, first.get? n = some names ∧ a ∈ names := by
  induction h with
  | @empty p hp he =>
    obtain ⟨names, hn⟩ := (first.mem_keys_iff p.lhs).1 (hkeys p hp)
    have hv := visit_of_pass_eq hstable p hp
    rw [visit, if_pos he] at hv
    exact ⟨names, hn, mem_of_add_eq (Except.ok.inj hv) hn (by simp)⟩
  | @terminal p pre a rest hp he hr hpre ih =>
    obtain ⟨names, hn⟩ := (first.mem_keys_iff p.lhs).1 (hkeys p hp)
    exact ⟨names, hn, mem_of_scan_eq hn (scan_of_stable hstable hp he hr ih) rfl⟩
  | @nonterminal p pre b a rest hp he hr hpre hb ha ihpre ihb =>
    obtain ⟨names, hn⟩ := (first.mem_keys_iff p.lhs).1 (hkeys p hp)
    obtain ⟨old, hold, hmem⟩ := ihb
    exact ⟨names, hn,
      mem_of_scan_eq hn (scan_of_stable hstable hp he hr ihpre) ⟨ha, old, hold, hmem⟩⟩

/-- **Every non-terminal that reading comes to has a stable set.** -/
theorem mem_keys_of_looksUp {first : FirstSets} (hstable : pass g first = .ok first)
    (hkeys : ∀ p ∈ g, p.lhs ∈ first.keys) {n : String} (h : g.LooksUp n) : n ∈ first.keys := by
  obtain ⟨p, hp, he, rest, pre, hr, hpre⟩ := h
  have hscan := scan_of_stable hstable hp he hr
    fun b hb => mem_of_first hstable hkeys (hpre b hb)
  rw [first.mem_keys_iff]
  cases hn : first.get? n with
  | none => simp [scan, hn] at hscan
  | some names => exact ⟨names, rfl⟩

/-! ## The passes come to an end -/

/-- One pass, which shows the sets that it leaves. -/
def round (g : Grammar) (first : FirstSets) : Except Fault (FirstSets × FirstSets) :=
  (fun next => (next, next)) <$> pass g first

/-- **The passes from some sets on**, until one of them adds nothing. -/
abbrev Settles (g : Grammar) : FirstSets → List FirstSets → FirstSets → Prop :=
  Rounds (round g) fun first next => next ≠ first

theorem round_eq_ok_iff {first next shown : FirstSets} :
    round g first = .ok (next, shown) ↔ pass g first = .ok next ∧ shown = next := by
  unfold round
  cases pass g first with
  | error e => simp [Functor.map, Except.map]
  | ok sets =>
    simp only [Functor.map, Except.map, Except.ok.injEq, Prod.mk.injEq]
    constructor
    · rintro ⟨rfl, rfl⟩
      exact ⟨rfl, rfl⟩
    · rintro ⟨rfl, rfl⟩
      exact ⟨rfl, rfl⟩

section Settles

variable {first last : FirstSets} {passes : List FirstSets}

/-- The last pass leaves stable sets. -/
theorem stable_of_settles (h : Settles g first passes last) :
    passes.getLast? = some last ∧ pass g last = .ok last := by
  obtain ⟨before, shown, hlast, here, quiet⟩ := h.exists_last
  obtain ⟨hpass, rfl⟩ := round_eq_ok_iff.1 here
  obtain rfl : shown = before := not_not.1 quiet
  exact ⟨hlast, hpass⟩

/-- No pass changes the keys. -/
theorem keys_of_settles (h : Settles g first passes last) :
    ∀ sets ∈ passes, sets.keys = first.keys := by
  induction h with
  | @last first last shown here _ =>
    obtain ⟨hpass, rfl⟩ := round_eq_ok_iff.1 here
    intro sets hsets
    rw [List.mem_singleton.1 hsets]
    exact (grows_pass hpass).keys
  | @more first next last shown passes here _ _ ih =>
    obtain ⟨hpass, rfl⟩ := round_eq_ok_iff.1 here
    have hkeys := (grows_pass hpass).keys
    intro sets hsets
    rcases List.mem_cons.1 hsets with rfl | hsets
    · exact hkeys
    · exact (ih sets hsets).trans hkeys

theorem size_eq_of_keys_eq {sets : FirstSets} (hkeys : sets.keys = first.keys) :
    sets.size = first.size := by
  rw [OrderedMap.size_eq_length_keys, OrderedMap.size_eq_length_keys, hkeys]

/-- **Every pass but the last adds a name.** -/
theorem length_le_of_settles (h : Settles g first passes last) :
    first.count + passes.length ≤ last.count + 1 := by
  induction h with
  | @last first last shown here quiet =>
    obtain ⟨-, rfl⟩ := round_eq_ok_iff.1 here
    obtain rfl : shown = first := not_not.1 quiet
    simp
  | @more first next last shown passes here call _ ih =>
    obtain ⟨hpass, rfl⟩ := round_eq_ok_iff.1 here
    have hlt : first.count < shown.count :=
      (grows_pass hpass).eq_or_count_lt.resolve_left fun heq => call heq.symm
    rw [List.length_cons]
    omega

/-- **The passes come to an end or are stopped.**  A bound that leaves room for the names that
sound sets can still take is not what ends them. -/
theorem passesFrom_cases (hs : Sound g first) {bound : Nat}
    (hroom : first.size * (candidates g).length < first.count + bound) :
    (∃ passes last, passesFrom g bound first = .ok passes ∧ Settles g first passes last ∧
      Sound g last ∧ last.keys = first.keys) ∨
    ∃ n, passesFrom g bound first = .error (.undefinedNonterminal n) ∧ g.LooksUp n ∧
      n ∉ first.keys := by
  induction bound generalizing first with
  | zero =>
    have hle := hs.count_le fun n a ha => mem_candidates ha
    omega
  | succ bound ih =>
    cases hpass : pass g first with
    | error e =>
      obtain ⟨n, rfl, hlook, hkeys⟩ := pass_error (List.Subset.refl g) hs hpass
      exact Or.inr ⟨n, by simp only [passesFrom, hpass], hlook, hkeys⟩
    | ok next =>
      have hgrows := grows_pass hpass
      have hsound := hs.pass (List.Subset.refl g) hpass
      by_cases hsame : next = first
      · subst hsame
        refine Or.inl ⟨[next], next, ?_, ?_, hsound, rfl⟩
        · simp only [passesFrom, hpass, if_true]
        · exact Rounds.last (round_eq_ok_iff.2 ⟨hpass, rfl⟩) (by simp)
      · have hlt : first.count < next.count :=
          hgrows.eq_or_count_lt.resolve_left fun heq => hsame heq.symm
        rw [← size_eq_of_keys_eq hgrows.keys] at hroom
        have hfrom : passesFrom g (bound + 1) first =
            (next :: ·) <$> passesFrom g bound next := by
          simp only [passesFrom, hpass, hsame, if_false]
        rw [hfrom, ← hgrows.keys]
        rcases ih hsound (by omega) with
          ⟨passes, last, hpasses, hsettles, hlast, hkeys⟩ | ⟨n, hstop, hlook, hkeys⟩
        · rw [hpasses]
          exact Or.inl ⟨next :: passes, last, rfl,
            Rounds.more (round_eq_ok_iff.2 ⟨hpass, rfl⟩) hsame hsettles, hlast, hkeys⟩
        · rw [hstop]
          exact Or.inr ⟨n, rfl, hlook, hkeys⟩

end Settles

theorem keys_initial (g : Grammar) :
    (initial g).keys = appendDistinct [] (g.map Production.lhs) := by
  rw [initial, OrderedMap.keys_ofList, List.map_map]
  rfl

/-- The keys are the left sides. -/
theorem mem_keys_initial {n : String} : n ∈ (initial g).keys ↔ ∃ p ∈ g, p.lhs = n := by
  rw [keys_initial, mem_appendDistinct]
  simp

theorem sound_initial : Sound g (initial g) := by
  intro n names hn
  obtain ⟨p, -, hp⟩ := List.mem_map.1 (OrderedMap.mem_of_get?_ofList hn)
  obtain ⟨-, rfl⟩ := Prod.mk.inj hp
  simp

/-- **The passes over a list of productions**, whatever is in it, come to an end, or are stopped
by a non-terminal that is missed. -/
theorem passes_cases (g : Grammar) :
    (∃ passes first, FirstSets.passes g = .ok passes ∧ compute g = .ok first ∧
      Settles g (initial g) passes first ∧ Sound g first ∧ first.keys = (initial g).keys) ∨
    ∃ n, compute g = .error (.undefinedNonterminal n) ∧ g.Misses n := by
  have hroom : (initial g).size * (candidates g).length <
      (initial g).count + (1 + (initial g).size * (candidates g).length) := by
    omega
  rcases passesFrom_cases sound_initial hroom with
    ⟨passes, first, hpasses, hsettles, hsound, hkeys⟩ | ⟨n, hstop, hlook, hkeys⟩
  · have hcompute : compute g = .ok first := by
      simp only [compute, FirstSets.passes, hpasses, bind, Except.bind,
        (stable_of_settles hsettles).1]
      rfl
    exact Or.inl ⟨passes, first, hpasses, hcompute, hsettles, hsound, hkeys⟩
  · refine Or.inr ⟨n, ?_, hlook, fun q hq hlhs => hkeys (mem_keys_initial.2 ⟨q, hq, hlhs⟩)⟩
    simp only [compute, FirstSets.passes, hstop, bind, Except.bind]

/-- **The passes over a grammar whose non-terminals are all defined** come to an end, and there
is at most one more of them than there are names in the sets. -/
theorem exists_passes (hdef : ∀ p ∈ g, ∀ n, .nonterminal n ∈ p.rhs → ∃ q ∈ g, q.lhs = n) :
    ∃ passes first, FirstSets.passes g = .ok passes ∧ compute g = .ok first ∧
      Settles g (initial g) passes first ∧ Sound g first ∧ first.keys = (initial g).keys ∧
      passes.length ≤ first.count + 1 := by
  rcases passes_cases g with
    ⟨passes, first, hpasses, hcompute, hsettles, hsound, hkeys⟩ | ⟨n, -, hmisses⟩
  · have hlen := length_le_of_settles hsettles
    exact ⟨passes, first, hpasses, hcompute, hsettles, hsound, hkeys, by omega⟩
  · exact absurd hmisses (Grammar.not_misses hdef n)

/-- **What the computation gives for a list of productions**, whatever is in it: sets for the left
sides with the names of the least family, or the name of a non-terminal that is missed. -/
theorem compute_cases (g : Grammar) :
    (∃ first, compute g = .ok first ∧ first.keys = (initial g).keys ∧
      (∀ n names, first.get? n = some names →
        names.Nodup ∧ ∀ a, a ∈ names ↔ g.First n a) ∧ ∀ n, ¬ g.Misses n) ∨
    ∃ n, compute g = .error (.undefinedNonterminal n) ∧ g.Misses n := by
  rcases passes_cases g with ⟨passes, first, -, hcompute, hsettles, hsound, hkeys⟩ | hmissed
  · have hstable := (stable_of_settles hsettles).2
    have hlhs : ∀ p ∈ g, p.lhs ∈ first.keys := by
      intro p hp
      rw [hkeys]
      exact mem_keys_initial.2 ⟨p, hp, rfl⟩
    refine Or.inl ⟨first, hcompute, hkeys, ?_, ?_⟩
    · intro n names hn
      obtain ⟨hnodup, hfirst⟩ := hsound n names hn
      refine ⟨hnodup, fun a => ⟨hfirst a, fun ha => ?_⟩⟩
      obtain ⟨names', hn', hmem⟩ := mem_of_first hstable hlhs ha
      rwa [Option.some.inj (hn.symm.trans hn')]
    · rintro n ⟨hlook, hmissed⟩
      have hn := mem_keys_of_looksUp hstable hlhs hlook
      rw [hkeys] at hn
      obtain ⟨p, hp, hp'⟩ := mem_keys_initial.1 hn
      exact hmissed p hp hp'
  · exact Or.inr hmissed

/-- **The stable sets of a grammar whose non-terminals are all defined**: a set for each
left side, without repetitions, with the names of the least family. -/
theorem exists_compute (hdef : ∀ p ∈ g, ∀ n, .nonterminal n ∈ p.rhs → ∃ q ∈ g, q.lhs = n) :
    ∃ first, compute g = .ok first ∧ (∀ n, n ∈ first.keys ↔ ∃ p ∈ g, p.lhs = n) ∧
      ∀ n a, (∃ names, first.get? n = some names ∧ a ∈ names) ↔ g.First n a := by
  rcases compute_cases g with ⟨first, hcompute, hkeys, hnames, -⟩ | ⟨n, -, hmisses⟩
  · have hmem : ∀ n, n ∈ first.keys ↔ ∃ p ∈ g, p.lhs = n := by
      intro n
      rw [hkeys]
      exact mem_keys_initial
    refine ⟨first, hcompute, hmem, fun n a => ⟨?_, fun ha => ?_⟩⟩
    · rintro ⟨names, hn, ha⟩
      exact ((hnames n names hn).2 a).1 ha
    · obtain ⟨names, hn⟩ := (first.mem_keys_iff n).1 ((hmem n).2 ha.exists_production)
      exact ⟨names, hn, ((hnames n names hn).2 a).2 ha⟩
  · exact absurd hmisses (Grammar.not_misses hdef n)

end LRTables.FirstSets
