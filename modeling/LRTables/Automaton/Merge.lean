import LRTables.Automaton.Basic
import LRTables.Fault

/-!
# Merging states

A state with two transitions over one name is ambiguous.  A pass over the automaton
goes through the transitions of every state in order and remembers the first one over
each name.  A later one over the same name is deleted; if it leads elsewhere, the
state it leads to is first absorbed by the state that the remembered one leads to.

Absorbing a state appends its items and transitions to those of the state that is
kept, sends every transition that led to it to the state that is kept, and removes it.
The lists that a pass goes through change under it, and three rules say how:

* a pass goes through as many places of a list as the list had in the beginning, or
  fewer if it has become shorter;
* deleting a transition moves the next one into its place, and the pass goes on with
  the place behind, so that one transition is neither compared nor remembered;
* a state that is absorbed while the pass goes through its transitions is gone, but
  the pass goes through the rest of its list all the same.

The first section holds `Automaton.absorb`, the second `MergeScan`, the way through one
list, and the third `Automaton.mergePass`.
-/

namespace LRTables

/-! ## Absorbing a state -/

/-- The transition with `keep` as its target if its target was `lose`. -/
def Transition.retarget (keep lose : Nat) (t : Transition) : Transition :=
  if t.target = lose then { t with target := keep } else t

/-- The state with all its transitions retargeted. -/
def State.retarget (keep lose : Nat) (s : State) : State :=
  { s with transitions := s.transitions.map (Transition.retarget keep lose) }

/-- The state with the items and transitions of another one behind its own. -/
def State.append (s t : State) : State :=
  ⟨s.rules ++ t.rules, s.transitions ++ t.transitions⟩

namespace Automaton

/-- The automaton in which the state `keep` has absorbed the state `lose`, or the number
of a state that is missing, that of the state to be kept before the other. -/
def absorb (a : Automaton) (keep lose : Nat) : Except Nat Automaton :=
  match a.get? keep, a.get? lose with
  | none, _ => .error keep
  | some _, none => .error lose
  | some s, some t =>
    .ok (((a.insert keep (s.append t)).mapValues (State.retarget keep lose)).erase lose)

/-- The automaton with the transitions of a state replaced.  A state that is gone stays gone. -/
def setTransitions (a : Automaton) (index : Nat) (transitions : List Transition) : Automaton :=
  a.modify index fun s => { s with transitions := transitions }

end Automaton

/-! ## The way through the transitions of one state -/

/-- A merge: in the state `state`, over the name `name`, the state `kept` absorbed the
state `lost`. -/
structure Merge where
  /-- The state with the two transitions. -/
  state : Nat
  /-- The name that both of them read. -/
  name : String
  /-- The target of the later transition. -/
  lost : Nat
  /-- The target of the earlier transition. -/
  kept : Nat
  deriving DecidableEq, Repr

/-- A line about the merge. -/
def Merge.message (m : Merge) : String :=
  "[merge] state " ++ toString m.state ++ ", on " ++ m.name ++ ": state " ++ toString m.lost ++
    " -> state " ++ toString m.kept

/-- A transition that leads to no state, and the automaton as it was when a merge met it. -/
structure Dangling where
  /-- The number of the missing state. -/
  missing : Nat
  /-- The automaton with the merges that were made before. -/
  automaton : Automaton
  deriving DecidableEq, Repr

/-- How far a pass has come with the transitions of one state. -/
structure MergeScan where
  /-- The automaton so far. -/
  automaton : Automaton
  /-- The merges so far, the last one first. -/
  merges : List Merge
  /-- The transitions that lie behind. -/
  behind : List Transition
  /-- Those of them that are remembered: the first one over each name that was compared. -/
  remembered : List Transition
  /-- The transitions that lie ahead. -/
  ahead : List Transition
  deriving DecidableEq, Repr

namespace MergeScan

/-- The scan behind a transition that is the first one over its name. -/
def remember (s : MergeScan) (t : Transition) (ahead : List Transition) : MergeScan :=
  { s with behind := s.behind ++ [t], remembered := s.remembered ++ [t], ahead := ahead }

/-- The scan behind a transition of the state `index` that is deleted.  The next
transition moves into its place and is passed over. -/
def delete (s : MergeScan) (index : Nat) (ahead : List Transition) : MergeScan :=
  { s with
    automaton := s.automaton.setTransitions index (s.behind ++ ahead)
    behind := s.behind ++ ahead.take 1
    ahead := ahead.drop 1 }

/-- The scan of the state `index` after the target of `first` has absorbed that of `t`,
which is the next transition and over the same name.  The transitions of the absorbed
state come behind those that lie ahead if `index` is the state that is kept. -/
def absorb (s : MergeScan) (index : Nat) (first t : Transition) : Except Nat MergeScan :=
  match s.automaton.absorb first.target t.target with
  | .error missing => .error missing
  | .ok a =>
    let gained :=
      if first.target = index then
        ((s.automaton.get? t.target).map State.transitions).getD []
      else []
    let move := List.map (Transition.retarget first.target t.target)
    .ok {
      automaton := a
      merges := ⟨index, t.symbol.name, t.target, first.target⟩ :: s.merges
      behind := move s.behind
      remembered := move s.remembered
      ahead := move (s.ahead ++ gained) }

/-- One step of the scan of the state `index`, to the transition `t`, which is the first
one ahead, and `rest` is what lies behind it. -/
def step (s : MergeScan) (index : Nat) (t : Transition) (rest : List Transition) :
    Except Nat MergeScan :=
  match s.remembered.find? fun r => r.symbol.same t.symbol with
  | none => .ok (s.remember t rest)
  | some first =>
    if first.target = t.target then .ok (s.delete index rest)
    else
      match s.absorb index first t with
      | .error missing => .error missing
      | .ok s' => .ok (s'.delete index (s'.ahead.drop 1))

/-- The scan of the state `index` through at most `places` places. -/
def run (index : Nat) : Nat → MergeScan → Except Dangling MergeScan
  | 0, s => .ok s
  | places + 1, s =>
    match s.ahead with
    | [] => .ok s
    | t :: rest =>
      match s.step index t rest with
      | .error missing => .error ⟨missing, s.automaton⟩
      | .ok s' => run index places s'

end MergeScan

/-! ## A pass -/

namespace Automaton

/-- Goes through the transitions of one state, if it is still there. -/
def mergeState (index : Nat) (a : Automaton) (merges : List Merge) :
    Except Dangling (Automaton × List Merge) :=
  match a.get? index with
  | none => .ok (a, merges)
  | some s =>
    match MergeScan.run index s.transitions.length ⟨a, merges, [], [], s.transitions⟩ with
    | .error e => .error e
    | .ok scan => .ok (scan.automaton, scan.merges)

/-- Goes through the transitions of the states with the given numbers, one after the other. -/
def mergeStates : List Nat → Automaton → List Merge → Except Dangling (Automaton × List Merge)
  | [], a, merges => .ok (a, merges)
  | index :: rest, a, merges =>
    match mergeState index a merges with
    | .error e => .error e
    | .ok (a', merges') => mergeStates rest a' merges'

/-- One pass over all states that the automaton has in the beginning: the automaton
after it, and its merges in order. -/
def mergePass (a : Automaton) : Except Dangling (Automaton × List Merge) :=
  match mergeStates a.keys a [] with
  | .error e => .error e
  | .ok (a', merges) => .ok (a', merges.reverse)

end Automaton

end LRTables
