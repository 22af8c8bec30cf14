import Mathlib.Data.List.Induction
import PinnedStack.Proofs.Text.Bodies

/-!
# Entries of the data tables

A supply against the calls that were made on it, in any order.

* `Supply.Request`, `Supply.answer` — a request for an entry of the tables, and the label that answers
  it. `Supply.Call` — any call. `Supply.ledger` — calls in a row on a new supply, with the answers.
* `Supply.Ledger.Kept` — what holds after any calls; `Supply.Ledger.Kept.after` is the step.
* `Supply.Ledger.Within`, `Supply.Ledger.within_after` — calls that follow only add.
* `Supply.ledger_entries` — every label stands for one entry, which is that of the request.
-/

namespace PinnedStack

/-! ## Labels and entries -/

namespace Tables

theorem labelled_labels (t : Tables) :
    t.labelledLiterals.map Prod.fst ++ t.labelledRegions.map Prod.fst = t.labels := by
  rw [labels, ← map_zipIdx, ← map_zipIdx, labelledLiterals, labelledRegions, List.map_map,
    List.map_map]
  rfl

theorem filter_labelledLiterals {t : Tables} {label : String} {bytes : List UInt8}
    (held : (label, bytes) ∈ t.labelledLiterals) :
    t.labelledLiterals.filter (·.1 == label) = [(label, bytes)] := by
  have once : (t.labelledLiterals.map Prod.fst).Nodup :=
    (List.nodup_append.1 (t.labelled_labels ▸ t.nodup_labels)).1
  obtain ⟨front, back, whole⟩ := List.append_of_mem held
  rw [whole] at once ⊢
  rw [List.map_append, List.map_cons, List.nodup_append, List.nodup_cons] at once
  obtain ⟨-, ⟨behind, -⟩, before⟩ := once
  have others : ∀ part : List (String × List UInt8), label ∉ part.map Prod.fst →
      part.filter (·.1 == label) = [] := by
    intro part absent
    refine List.filter_eq_nil_iff.2 fun e mem same => absent ?_
    exact List.mem_map.2 ⟨e, mem, beq_iff_eq.1 same⟩
  rw [List.filter_append, List.filter_cons_of_pos (by simp), others _ behind,
    others front fun mem => before _ mem _ (List.mem_cons_self ..) rfl]
  rfl

/-- Where no bytes are stored twice, equal bytes have one label. -/
theorem label_unique {t : Tables} (distinct : t.literals.Nodup) {label other : String}
    {bytes : List UInt8} (first : (label, bytes) ∈ t.labelledLiterals)
    (second : (other, bytes) ∈ t.labelledLiterals) : label = other := by
  obtain ⟨i, left, rfl⟩ := mem_labelledLiterals.1 first
  obtain ⟨j, right, rfl⟩ := mem_labelledLiterals.1 second
  obtain ⟨inside, -⟩ := List.getElem?_eq_some_iff.1 left
  rw [(List.getElem?_inj inside distinct).1 (left.trans right.symm)]

end Tables

namespace Supply

/-! ## Calls and their answers -/

inductive Request where
  | literal (bytes : List UInt8)
  | terminated (bytes : List UInt8)
  | region (name : String) (size : Nat)
deriving DecidableEq

namespace Request

/-- The bytes that a request wants stored. A zero ends those of a terminated string. -/
def bytes? : Request → Option (List UInt8)
  | literal bytes => some bytes
  | terminated bytes => some (bytes ++ [0])
  | region .. => none

/-- The memory that a request wants reserved. -/
def region? : Request → Option Region
  | region name size => some ⟨name, size⟩
  | _ => none

end Request

/-- The label that answers a request, and what is left. -/
def answer (s : Supply) : Request → String × Supply
  | .literal bytes => s.literal bytes
  | .terminated bytes => s.terminated bytes
  | .region name size => s.region name size

inductive Call where
  | entry (request : Request)
  | pin (name : String) (ty : Ty) (place : Place)
  | unpin (name : String)
  | label
deriving DecidableEq

/-- The request for an entry that a call makes. -/
def Call.request? : Call → Option Request
  | entry request => some request
  | _ => none

theorem Call.eq_entry {c : Call} {r : Request} (made : c.request? = some r) : c = .entry r := by
  cases c <;> cases made
  rfl

/-- A request and the label that it was answered with. -/
structure Answer where
  request : Request
  label : String
deriving DecidableEq

/-- The memory that an answer stands for, with its label. -/
def Answer.region? (a : Answer) : Option (String × Region) := a.request.region?.map (a.label, ·)

/-- Requests that were answered and the supply that is left. -/
structure Ledger where
  answers : List Answer
  supply : Supply

/-- One more call. A pin that is refused leaves the supply as it was. -/
def Ledger.after (l : Ledger) : Call → Ledger
  | .entry request =>
      let (label, next) := l.supply.answer request
      ⟨l.answers ++ [⟨request, label⟩], next⟩
  | .pin name ty place =>
      match l.supply.pin name ty place with
      | .ok (_, next) => { l with supply := next }
      | .error _ => l
  | .unpin name => { l with supply := (l.supply.unpin name).2 }
  | .label => { l with supply := l.supply.label.2 }

/-- Calls in a row on a new supply. -/
def ledger (limits : Limits) (calls : List Call) : Ledger :=
  calls.foldl Ledger.after ⟨[], .ofLimits limits⟩

/-- A request is for bytes, which are added as a literal, or for a memory. -/
theorem answer_cases (s : Supply) (r : Request) :
    (∃ bytes, r.bytes? = some bytes ∧ r.region? = none ∧ s.answer r = s.literal bytes)
      ∨ ∃ name size, r = .region name size := by
  cases r with
  | literal bytes => exact .inl ⟨bytes, rfl, rfl, rfl⟩
  | terminated bytes => exact .inl ⟨bytes ++ [0], rfl, rfl, rfl⟩
  | region name size => exact .inr ⟨name, size, rfl⟩

/-- A call that makes no request changes neither the answers nor the tables. -/
theorem Ledger.after_of_request? (l : Ledger) {c : Call} (other : c.request? = none) :
    (l.after c).answers = l.answers ∧ (l.after c).supply.tables = l.supply.tables := by
  cases c with
  | entry request => cases other
  | pin name ty place =>
    simp only [after, Supply.pin]
    cases l.supply.book.pin name ty with
    | error fault => exact ⟨rfl, rfl⟩
    | ok bound => exact ⟨rfl, rfl⟩
  | unpin name => exact ⟨rfl, rfl⟩
  | label => exact ⟨rfl, rfl⟩

namespace Ledger

/-! ## What calls keep -/

/-- What holds after any calls: the label that answers a request for bytes stands for them, and the
memories are those that were requested, in order, under the labels that were given. -/
structure Kept (l : Ledger) : Prop where
  distinct : l.supply.tables.literals.Nodup
  held : ∀ a ∈ l.answers, ∀ bytes, a.request.bytes? = some bytes →
    (a.label, bytes) ∈ l.supply.tables.labelledLiterals
  regions : l.supply.tables.labelledRegions = l.answers.filterMap Answer.region?

/-- The answers and the entries of one ledger stand in front of those of another. -/
structure Within (l more : Ledger) : Prop where
  answers : l.answers <+: more.answers
  literals : l.supply.tables.labelledLiterals <+: more.supply.tables.labelledLiterals
  regions : l.supply.tables.labelledRegions <+: more.supply.tables.labelledRegions

variable {l : Ledger}

theorem Within.refl (l : Ledger) : l.Within l :=
  ⟨List.prefix_refl _, List.prefix_refl _, List.prefix_refl _⟩

theorem Within.trans {m n : Ledger} (first : l.Within m) (second : m.Within n) : l.Within n :=
  ⟨first.answers.trans second.answers, first.literals.trans second.literals,
    first.regions.trans second.regions⟩

theorem within_after (l : Ledger) (c : Call) : l.Within (l.after c) := by
  cases made : c.request? with
  | none =>
    obtain ⟨answers, tables⟩ := l.after_of_request? made
    have literals := congrArg Tables.labelledLiterals tables
    have regions := congrArg Tables.labelledRegions tables
    exact ⟨answers ▸ List.prefix_refl _, literals ▸ List.prefix_refl _,
      regions ▸ List.prefix_refl _⟩
  | some r =>
    obtain rfl := Call.eq_entry made
    rcases l.supply.answer_cases r with ⟨bytes, -, -, eq⟩ | ⟨name, size, rfl⟩
    · have grows := (l.supply.labelled_literal bytes).2
      simp only [after, eq]
      refine ⟨List.prefix_append _ _, Tables.labelled_mono grows.literals, ?_⟩
      exact Tables.labelled_mono (grows.regions ▸ List.prefix_refl _)
    · exact ⟨List.prefix_append _ _, List.prefix_refl _,
        Tables.labelled_mono (List.prefix_append _ _)⟩

namespace Kept

theorem start (limits : Limits) : Kept ⟨[], .ofLimits limits⟩ where
  distinct := List.nodup_nil
  held := nofun
  regions := rfl

theorem literal (kept : l.Kept) {r : Request} {bytes : List UInt8} (wanted : r.bytes? = some bytes)
    (none : r.region? = none) :
    Kept ⟨l.answers ++ [⟨r, (l.supply.literal bytes).1⟩], (l.supply.literal bytes).2⟩ := by
  obtain ⟨given, grows⟩ := l.supply.labelled_literal bytes
  refine ⟨?_, fun a mem other eq => ?_, ?_⟩
  · show (l.supply.tables.addLiteral bytes).2.literals.Nodup
    rw [Tables.literals_addLiteral]
    split
    · exact kept.distinct
    · rename_i absent
      rw [← List.concat_eq_append]
      exact kept.distinct.concat absent
  · rcases List.mem_append.1 mem with mem | mem
    · exact grows.labelled (kept.held a mem other eq)
    · obtain rfl := List.mem_singleton.1 mem
      obtain rfl := Option.some.inj (wanted.symm.trans eq)
      exact given
  · have same : (l.supply.literal bytes).2.tables.labelledRegions
        = l.supply.tables.labelledRegions := by
      rw [Tables.labelledRegions, grows.regions, Tables.labelledRegions]
    rw [same, kept.regions, List.filterMap_append]
    simp [Answer.region?, none]

theorem region (kept : l.Kept) (name : String) (size : Nat) :
    Kept (l.after (.entry (.region name size))) := by
  refine ⟨kept.distinct, fun a mem bytes eq => ?_, ?_⟩
  · rcases List.mem_append.1 mem with mem | mem
    · exact kept.held a mem bytes eq
    · obtain rfl := List.mem_singleton.1 mem
      cases eq
  · have added : (l.after (.entry (.region name size))).supply.tables.labelledRegions
        = l.supply.tables.labelledRegions
          ++ [((l.supply.region name size).1, ⟨name, size⟩)] := by
      simp [after, answer, Supply.region, Tables.addRegion, Tables.labelledRegions,
        List.zipIdx_append]
    rw [added, kept.regions]
    simp [after, answer, Answer.region?, Request.region?]

theorem after (kept : l.Kept) (c : Call) : (l.after c).Kept := by
  cases made : c.request? with
  | none =>
    obtain ⟨answers, tables⟩ := l.after_of_request? made
    refine ⟨?_, ?_, ?_⟩
    · rw [tables]
      exact kept.distinct
    · rw [answers, tables]
      exact kept.held
    · rw [answers, tables]
      exact kept.regions
  | some r =>
    obtain rfl := Call.eq_entry made
    rcases l.supply.answer_cases r with ⟨bytes, wanted, none, eq⟩ | ⟨name, size, rfl⟩
    · simp only [Ledger.after, eq]
      exact kept.literal wanted none
    · exact kept.region name size

end Kept

end Ledger

/-! ## Calls in a row -/

theorem ledger_append (limits : Limits) (calls more : List Call) :
    ledger limits (calls ++ more) = more.foldl Ledger.after (ledger limits calls) :=
  List.foldl_append

theorem kept_ledger (limits : Limits) (calls : List Call) : (ledger limits calls).Kept := by
  induction calls using List.reverseRecOn with
  | nil => exact .start limits
  | append_singleton calls c ih =>
    rw [ledger_append]
    exact ih.after c

/-- **Calls that follow leave the answers and the entries where they are.** -/
theorem within_ledger (limits : Limits) (calls more : List Call) :
    (ledger limits calls).Within (ledger limits (calls ++ more)) := by
  induction more using List.reverseRecOn with
  | nil =>
    rw [List.append_nil]
    exact .refl _
  | append_singleton more c ih =>
    rw [← List.append_assoc, ledger_append]
    exact ih.trans (Ledger.within_after _ c)

theorem requests_ledger (limits : Limits) (calls : List Call) :
    (ledger limits calls).answers.map Answer.request = calls.filterMap Call.request? := by
  induction calls using List.reverseRecOn with
  | nil => rfl
  | append_singleton calls c ih =>
    rw [ledger_append, List.filterMap_append, ← ih]
    cases made : c.request? with
    | none =>
      have same := (Ledger.after_of_request? (ledger limits calls) made).1
      simp [same, made]
    | some r =>
      obtain rfl := Call.eq_entry made
      simp [Ledger.after, Call.request?]

/-- **Labels are stable and stand for one entry each.** After any calls no bytes are stored twice; the
label that answered a request for bytes stands for one entry, which has just these bytes, so that two
requests share a label where they want the same bytes stored; the memories are those that were
requested, in order, each under the label that it was answered with; no two entries share a label; and
calls that follow change none of this, they only add. -/
theorem ledger_entries (limits : Limits) (calls : List Call) :
    let l := ledger limits calls
    let t := l.supply.tables
    l.answers.map Answer.request = calls.filterMap Call.request?
      ∧ t.literals.Nodup
      ∧ (∀ a ∈ l.answers, ∀ bytes, a.request.bytes? = some bytes →
          t.labelledLiterals.filter (·.1 == a.label) = [(a.label, bytes)])
      ∧ (∀ a ∈ l.answers, ∀ b ∈ l.answers, ∀ bytes other,
          a.request.bytes? = some bytes → b.request.bytes? = some other →
            (a.label = b.label ↔ bytes = other))
      ∧ t.labelledRegions = l.answers.filterMap Answer.region?
      ∧ (t.labelledLiterals.map Prod.fst ++ t.labelledRegions.map Prod.fst).Nodup
      ∧ ∀ more, l.Within (ledger limits (calls ++ more)) := by
  intro l t
  have kept : l.Kept := kept_ledger limits calls
  refine ⟨requests_ledger limits calls, kept.distinct, ?_, ?_, kept.regions, ?_,
    within_ledger limits calls⟩
  · intro a mem bytes wanted
    exact Tables.filter_labelledLiterals (kept.held a mem bytes wanted)
  · intro a here b there bytes other wanted wanted'
    have first := kept.held a here bytes wanted
    have second := kept.held b there other wanted'
    constructor
    · intro same
      exact Tables.labelled_unique first (same ▸ second)
    · rintro rfl
      exact Tables.label_unique kept.distinct first second
  · rw [Tables.labelled_labels]
    exact Tables.nodup_labels t

/-- Two memories of one name, and a string whose bytes are those of another one with its zero; the pin
between them is refused. -/
def sharedCalls : List Call :=
  [.entry (.literal [104, 105]), .entry (.region "b" 8), .pin "x" .str .builtin,
    .entry (.terminated [104, 105]), .label, .entry (.literal [104, 105, 0]), .unpin "x",
    .entry (.region "b" 0)]

/-- The two strings of equal bytes share a label, and the two memories do not. -/
theorem ledger_entries_shared :
    let l := ledger ⟨1, 64⟩ sharedCalls
    let t := l.supply.tables
    l.answers.map Answer.label = ["str_0", "mem_0", "str_1", "str_1", "mem_1"]
      ∧ t.literals.Nodup
      ∧ t.labelledLiterals.filter (·.1 == "str_1") = [("str_1", [104, 105] ++ [0])]
      ∧ t.labelledRegions = [("mem_0", ⟨"b", 8⟩), ("mem_1", ⟨"b", 0⟩)] := by
  intro l t
  have answers : l.answers = [⟨.literal [104, 105], "str_0"⟩, ⟨.region "b" 8, "mem_0"⟩,
      ⟨.terminated [104, 105], "str_1"⟩, ⟨.literal [104, 105, 0], "str_1"⟩,
      ⟨.region "b" 0, "mem_1"⟩] := by decide +kernel
  obtain ⟨-, distinct, entry, -, regions, -⟩ := ledger_entries ⟨1, 64⟩ sharedCalls
  have third : ⟨.terminated [104, 105], "str_1"⟩ ∈ l.answers := by
    rw [answers]
    decide
  have reserved : t.labelledRegions = [("mem_0", ⟨"b", 8⟩), ("mem_1", ⟨"b", 0⟩)] := by
    rw [regions]
    show l.answers.filterMap Answer.region? = _
    rw [answers]
    rfl
  exact ⟨by rw [answers]; rfl, distinct, entry _ third _ rfl, reserved⟩

end Supply

end PinnedStack
