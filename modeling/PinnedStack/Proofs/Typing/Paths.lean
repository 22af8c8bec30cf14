import PinnedStack.Proofs.Tree.Agreement
import PinnedStack.Proofs.Typing.Alike
import PinnedStack.Proofs.Typing.Sightings

/-!
# One pass over a body speaks for all of its paths

* `Move`, `verifyMoves` — straight-line code, where a branch or loop has left the number that decided
  it.
* `Path` — the ways through a body: an arm for each branch and a number of rounds for each loop.
* `Strays` — a way that reaches an access through an address unlike the one verification saw there.
* `Scoped.path_follows` — a path of a verified body verifies to a like stack or strays.
* `Program.path_verifies` — the same of every function of a program.
-/

namespace PinnedStack

/-! ## Ways through a body -/

/-- A step of straight-line code. `choose` takes off the number that decides a branch or a loop. -/
inductive Move where
  | op (op : Op) (place : Place)
  | call (call : Call) (place : Place)
  | choose (construct : String) (place : Place)

def Move.verify : Move → Knowledge → Except Diagnostic Knowledge
  | .op operation place, k => operation.verify place k
  | .call callee place, k => (Node.call callee place).verify k
  | .choose construct place, k =>
      match k.shape.drop construct .number place with
      | .ok s => .ok { k with shape := s }
      | .error d => .error d

def verifyMoves : List Move → Knowledge → Except Diagnostic Knowledge
  | [], k => .ok k
  | m :: ms, k =>
      match m.verify k with
      | .ok next => verifyMoves ms next
      | .error d => .error d

/-- The condition of a loop, from the pin's value to the number that decides. -/
def loopTest (p : Pin) (place : Place) (condition : List Move) : List Move :=
  .op (.pinned p) place :: (condition ++ [.choose "loop condition" place])

/-- One round of a loop, given as a way through its condition and one through its body. -/
def loopRound (p : Pin) (place : Place) (round : List Move × List Move) : List Move :=
  loopTest p place round.1 ++ (round.2 ++ [.op (.update p) place])

/-- The ways through nodes. -/
inductive Path : List Node → List Move → Prop where
  | nil : Path [] []
  | op {op : Op} {place : Place} {nodes : List Node} {moves : List Move}
      (rest : Path nodes moves) : Path (.op op place :: nodes) (.op op place :: moves)
  | call {call : Call} {place : Place} {nodes : List Node} {moves : List Move}
      (rest : Path nodes moves) : Path (.call call place :: nodes) (.call call place :: moves)
  | ifTrueTaken {body nodes : List Node} {label : Nat} {place : Place} {inner moves : List Move}
      (arm : Path body inner) (rest : Path nodes moves) :
      Path (.ifTrue body label place :: nodes) (.choose "if" place :: (inner ++ moves))
  | ifTruePassed {body nodes : List Node} {label : Nat} {place : Place} {moves : List Move}
      (rest : Path nodes moves) :
      Path (.ifTrue body label place :: nodes) (.choose "if" place :: moves)
  | ifFalseTaken {body nodes : List Node} {label : Nat} {place : Place} {inner moves : List Move}
      (arm : Path body inner) (rest : Path nodes moves) :
      Path (.ifFalse body label place :: nodes) (.choose "if" place :: (inner ++ moves))
  | ifFalsePassed {body nodes : List Node} {label : Nat} {place : Place} {moves : List Move}
      (rest : Path nodes moves) :
      Path (.ifFalse body label place :: nodes) (.choose "if" place :: moves)
  | ifElseYes {yes no nodes : List Node} {label : Nat} {place : Place} {inner moves : List Move}
      (arm : Path yes inner) (rest : Path nodes moves) :
      Path (.ifElse yes no label place :: nodes) (.choose "if" place :: (inner ++ moves))
  | ifElseNo {yes no nodes : List Node} {label : Nat} {place : Place} {inner moves : List Move}
      (arm : Path no inner) (rest : Path nodes moves) :
      Path (.ifElse yes no label place :: nodes) (.choose "if" place :: (inner ++ moves))
  | loop {p : Pin} {condition body nodes : List Node} {label : Nat} {place : Place}
      {rounds : List (List Move × List Move)} {test moves : List Move}
      (tests : ∀ r ∈ rounds, Path condition r.1) (turns : ∀ r ∈ rounds, Path body r.2)
      (last : Path condition test) (rest : Path nodes moves) :
      Path (.loop p condition body label place :: nodes)
        (.op (.pin p) place :: (rounds.flatMap (loopRound p place) ++ loopTest p place test)
          ++ (.op (.pinned p) place :: .op (.unpin p) place :: moves))

/-- Moves that reach an access through an address that leads to other values than the one
verification met at the same place. -/
def Strays (visits : List Visit) (moves : List Move) (start : Knowledge) : Prop :=
  ∃ before op place rest here v, moves = before ++ .op op place :: rest
    ∧ verifyMoves before start = .ok here ∧ v ∈ visits ∧ v.node = .op op place
    ∧ v.known.Alike here ∧ op.Apart place v.known here

/-! ## Moves in a row -/

section Moves

variable {k j after : Knowledge} {xs ys : List Move} {visits : List Visit}

theorem verifyMoves_append (xs ys : List Move) (k : Knowledge) :
    verifyMoves (xs ++ ys) k = (verifyMoves xs k >>= verifyMoves ys) := by
  induction xs generalizing k with
  | nil => rfl
  | cons m xs ih =>
    simp only [List.cons_append, verifyMoves]
    cases m.verify k with
    | ok next => exact ih next
    | error d => rfl

theorem verifyMoves_append_of_ok (ok : verifyMoves xs k = .ok j) :
    verifyMoves (xs ++ ys) k = verifyMoves ys j := by
  rw [verifyMoves_append, ok]
  rfl

theorem Strays.append (h : Strays visits xs k) (ys : List Move) : Strays visits (xs ++ ys) k := by
  obtain ⟨before, op, place, rest, here, v, rfl, ok, facts⟩ := h
  exact ⟨before, op, place, rest ++ ys, here, v, by simp, ok, facts⟩

theorem Strays.prepend (ok : verifyMoves xs k = .ok j) (h : Strays visits ys j) :
    Strays visits (xs ++ ys) k := by
  obtain ⟨before, op, place, rest, here, v, rfl, more, facts⟩ := h
  refine ⟨xs ++ before, op, place, rest, here, v, by simp, ?_, facts⟩
  rw [verifyMoves_append_of_ok ok]
  exact more

/-- The moves verify to something like the given knowledge, or they stray. -/
def Follows (visits : List Visit) (moves : List Move) (start after : Knowledge) : Prop :=
  (∃ last, verifyMoves moves start = .ok last ∧ after.Alike last) ∨ Strays visits moves start

/-- What the moves lead to may be replaced by something like it. -/
theorem Follows.imp {middle : Knowledge} (h : Follows visits xs k middle)
    (like : ∀ j, middle.Alike j → after.Alike j) : Follows visits xs k after := by
  rcases h with ⟨j, ok, alike⟩ | strays
  · exact .inl ⟨j, ok, like j alike⟩
  · exact .inr strays

/-- Moves in a row, each part from where the one before left off. -/
theorem Follows.append {middle : Knowledge} (hx : Follows visits xs k middle)
    (hy : ∀ j, middle.Alike j → Follows visits ys j after) : Follows visits (xs ++ ys) k after := by
  rcases hx with ⟨j, ok, alike⟩ | strays
  · rcases hy j alike with ⟨last, more, alike⟩ | strays
    · exact .inl ⟨last, (verifyMoves_append_of_ok ok).trans more, alike⟩
    · exact .inr (strays.prepend ok)
  · exact .inr (strays.append ys)

theorem Follows.nil (alike : after.Alike k) : Follows visits [] k after := .inl ⟨k, rfl, alike⟩

theorem Follows.single {m : Move} (ok : m.verify k = .ok j) (alike : after.Alike j) :
    Follows visits [m] k after := .inl ⟨j, by simp [verifyMoves, ok], alike⟩

theorem Follows.cons {m : Move} {middle : Knowledge} (hm : Follows visits [m] k middle)
    (hy : ∀ j, middle.Alike j → Follows visits ys j after) : Follows visits (m :: ys) k after :=
  hm.append hy

/-- Moves that lead back to where they start from, any number of times. -/
theorem Follows.flatMap {α : Type} {moves : α → List Move} {rounds : List α}
    (round : ∀ r ∈ rounds, ∀ i, k.Alike i → Follows visits (moves r) i k) (alike : k.Alike j) :
    Follows visits (rounds.flatMap moves) j k := by
  induction rounds generalizing j with
  | nil => exact .nil alike
  | cons r rounds ih =>
    obtain ⟨first, others⟩ := List.forall_mem_cons.1 round
    rw [List.flatMap_cons]
    exact (first j alike).append fun i like => ih others like

/-- Taking the deciding number off leaves stacks that are alike. -/
theorem Follows.choose {construct : String} {place : Place} {s : Shape} (alike : k.Alike j)
    (ok : k.shape.drop construct .number place = .ok s) :
    Follows visits [.choose construct place] j { k with shape := s } := by
  obtain ⟨c, eq, number⟩ := Shape.drop_eq_ok.1 ok
  have shape := alike.shape
  unfold Shape.Alike at shape
  rw [eq] at shape
  obtain ⟨d, rest, head, below, there⟩ := List.forall₂_cons_left_iff.1 shape
  have top : j.shape.drop construct .number place = .ok ⟨rest⟩ :=
    Shape.drop_eq_ok.2 ⟨d, there, Ty.Alike.fits_eq head ▸ number⟩
  refine .single (j := { j with shape := ⟨rest⟩ }) ?_ ⟨below, alike.sightings⟩
  simp only [Move.verify, top]

/-- An operation on a pin does not look where addresses lead. -/
theorem Follows.pinning {op : Op} {place : Place} (pinning : op.isPinning = true)
    (alike : k.Alike j) (ok : op.verify place k = .ok after) :
    Follows visits [.op op place] j after := by
  rcases Op.verify_alike alike ok with ⟨last, there, like⟩ | ⟨access, _, _, moved, -⟩
  · exact .single there like
  · cases op <;> simp [Op.isPinning, Op.access?] at pinning moved

end Moves

/-! ## Paths of nodes in a row -/

theorem Path.of_nil {moves : List Move} (h : Path [] moves) : moves = [] := by
  cases h
  rfl

theorem Path.split {xs ys : List Node} {moves : List Move} (h : Path (xs ++ ys) moves) :
    ∃ as bs, moves = as ++ bs ∧ Path xs as ∧ Path ys bs := by
  induction xs generalizing moves with
  | nil => exact ⟨[], moves, rfl, .nil, h⟩
  | cons n xs ih =>
    cases h with
    | op rest =>
      obtain ⟨as, bs, rfl, left, right⟩ := ih rest
      exact ⟨_ :: as, bs, rfl, .op left, right⟩
    | call rest =>
      obtain ⟨as, bs, rfl, left, right⟩ := ih rest
      exact ⟨_ :: as, bs, rfl, .call left, right⟩
    | ifTrueTaken arm rest =>
      obtain ⟨as, bs, rfl, left, right⟩ := ih rest
      exact ⟨_, bs, by simp, .ifTrueTaken arm left, right⟩
    | ifTruePassed rest =>
      obtain ⟨as, bs, rfl, left, right⟩ := ih rest
      exact ⟨_ :: as, bs, rfl, .ifTruePassed left, right⟩
    | ifFalseTaken arm rest =>
      obtain ⟨as, bs, rfl, left, right⟩ := ih rest
      exact ⟨_, bs, by simp, .ifFalseTaken arm left, right⟩
    | ifFalsePassed rest =>
      obtain ⟨as, bs, rfl, left, right⟩ := ih rest
      exact ⟨_ :: as, bs, rfl, .ifFalsePassed left, right⟩
    | ifElseYes arm rest =>
      obtain ⟨as, bs, rfl, left, right⟩ := ih rest
      exact ⟨_, bs, by simp, .ifElseYes arm left, right⟩
    | ifElseNo arm rest =>
      obtain ⟨as, bs, rfl, left, right⟩ := ih rest
      exact ⟨_, bs, by simp, .ifElseNo arm left, right⟩
    | loop tests turns last rest =>
      obtain ⟨as, bs, rfl, left, right⟩ := ih rest
      exact ⟨_, bs, by simp, .loop tests turns last left, right⟩

theorem Path.of_ops {ops : List Op} {place : Place} {moves : List Move}
    (h : Path (ops.map (.op · place)) moves) : moves = ops.map (.op · place) := by
  induction ops generalizing moves with
  | nil => exact h.of_nil
  | cons op ops ih =>
    cases h with
    | op rest => simp [ih rest]

/-- Operations on pins in a row lead from like to like. -/
theorem follows_pinnings {ops : List Op} (pinning : ∀ op ∈ ops, op.isPinning = true)
    {place : Place} {visits : List Visit} {k j after : Knowledge} (alike : k.Alike j)
    (ok : verifyAll (ops.map (.op · place)) k = .ok after) :
    Follows visits (ops.map (.op · place)) j after := by
  induction ops generalizing k j with
  | nil =>
    cases ok
    exact .nil alike
  | cons op ops ih =>
    obtain ⟨next, one, rest⟩ := verifyAll_cons_eq_ok.1 ok
    refine (Follows.pinning (pinning op (List.mem_cons_self ..)) alike one).cons fun i like => ?_
    exact ih (fun o mem => pinning o (List.mem_cons_of_mem _ mem)) like rest

/-! ## Bodies -/

/-- Taking a value off a stack leaves what lay below an equally typed one. -/
theorem Shape.Matches.of_push {below round left : Shape} {t : Ty} {op : String} {place : Place}
    (h : (below.push t place).Matches round) (ok : round.dropValue op t place = .ok left) :
    below.Matches left := by
  obtain ⟨cells, eq, fits⟩ := dropValue_eq_ok.1 ok
  unfold Matches at *
  rw [cells_push, eq] at h
  have lengths : ((t.words.map fun w => (⟨w, place⟩ : Cell)).reverse).length = cells.length := by
    rw [fits.length_eq]
    simp
  have both := List.forall₂_drop cells.length h
  rwa [List.drop_left, ← lengths, List.drop_left] at both

section Bodies

variable {callees : List Call} {scope : List Pin} {first stop : Nat} {nodes : List Node}
  {visits : List Visit}

section Loops

variable {p : Pin} {place : Place} {below s left : Shape} {σ : Sightings}
  {tested round j : Knowledge}

/-- A way through a loop's condition, up to the number that decides. -/
theorem follows_loopTest {condition : List Move} (static : p.ty.isRuntime = false)
    (inner : ∀ i, Knowledge.Alike ⟨below.push p.ty place, σ⟩ i →
      Follows visits condition i tested)
    (number : tested.shape.drop "loop condition" .number place = .ok s)
    (alike : Knowledge.Alike ⟨below, σ⟩ j) :
    Follows visits (loopTest p place condition) j { tested with shape := s } := by
  have pushed : (Op.pinned p).verify place ⟨below, σ⟩ = .ok ⟨below.push p.ty place, σ⟩ :=
    Knowledge.pushPin_eq_ok.2 ⟨p.ty, Knowledge.tyOf_eq_ok static, rfl⟩
  refine (Follows.pinning rfl alike pushed).cons fun i like => ?_
  exact (inner i like).append fun j like => .choose like number

/-- A round of a loop comes back to the stack below the pin's value. -/
theorem follows_loopRound {r : List Move × List Move} (static : p.ty.isRuntime = false)
    (testing : Follows visits (loopTest p place r.1) j { tested with shape := s })
    (turning : ∀ i, Knowledge.Alike { tested with shape := s } i → Follows visits r.2 i round)
    (next : round.shape.dropValue (Knowledge.pinning p) p.ty place = .ok left)
    (back : below.Matches left) (kept : round.sightings = σ) :
    Follows visits (loopRound p place r) j ⟨below, σ⟩ := by
  refine testing.append fun i like => (turning i like).append fun i like => ?_
  have updated : (Op.update p).verify place round = .ok { round with shape := left } :=
    Knowledge.updatePin_eq_ok.2 ⟨p.ty, left, Knowledge.tyOf_eq_ok static, next, rfl⟩
  refine (Follows.pinning rfl like updated).imp fun last final => ?_
  exact ⟨back.alike.trans final.shape, kept ▸ final.sightings⟩

theorem follows_loopEnd (static : p.ty.isRuntime = false) (sides : left.Alike s)
    (kept : round.sightings = tested.sightings)
    (alike : Knowledge.Alike { tested with shape := s } j) :
    Follows visits [.op (.pinned p) place, .op (.unpin p) place] j
      { round with shape := left.push p.ty place } := by
  have pushed : (Op.pinned p).verify place { tested with shape := s }
      = .ok { tested with shape := s.push p.ty place } :=
    Knowledge.pushPin_eq_ok.2 ⟨p.ty, Knowledge.tyOf_eq_ok static, rfl⟩
  have released : (Op.unpin p).verify place { tested with shape := s.push p.ty place }
      = .ok { tested with shape := s.push p.ty place } := by
    rw [Op.verify, Knowledge.releasePin_eq static]
  refine (Follows.pinning rfl alike pushed).cons fun i like => ?_
  refine (Follows.pinning rfl like released).imp fun last final => ?_
  exact ⟨(sides.push (.refl p.ty) place place).trans final.shape, kept ▸ final.sightings⟩

end Loops

/-- A single arm is taken, or it is passed over: it leaves the stack as it was. -/
theorem follows_singleArm {body : List Node} {place : Place} {s : Shape} {k j after : Knowledge}
    (top : k.shape.drop "if" .number place = .ok s) (same : s.Matches after.shape)
    (kept : after.sightings = k.sightings)
    (taken : ∀ moves i, Knowledge.Alike { k with shape := s } i → Path body moves →
      Follows visits moves i after)
    (alike : k.Alike j) (moves : List Move) (way : moves = [] ∨ Path body moves) :
    Follows visits (.choose "if" place :: moves) j after := by
  refine (Follows.choose alike top).cons fun i like => ?_
  rcases way with rfl | way
  · exact .nil ⟨same.alike.symm.trans like.shape, kept ▸ like.sightings⟩
  · exact taken moves i like way

/-- **A path of a verified body verifies to a like stack, or it strays.** Each round of a loop
starts from a stack like the one that verification started its only round from. -/
theorem Scoped.path_follows (h : Scoped callees scope first stop nodes) {offset : Nat}
    {k j after : Knowledge} {moves : List Move} (ok : verifyAll nodes k = .ok after)
    (seen : visitsAll nodes offset k ⊆ visits) (alike : k.Alike j) (path : Path nodes moves) :
    Follows visits moves j after := by
  induction h generalizing offset k j after moves with
  | nil =>
    cases ok
    obtain rfl := path.of_nil
    exact .nil alike
  | append _ _ left right =>
    obtain ⟨middle, before, rest⟩ := verifyAll_append_eq_ok.1 ok
    obtain ⟨as, bs, rfl, pathx, pathy⟩ := path.split
    rw [visitsAll_append, before] at seen
    refine (left before (fun v mem => seen (List.mem_append_left _ mem)) alike pathx).append ?_
    exact fun i like => right rest (fun v mem => seen (List.mem_append_right _ mem)) like pathy
  | @op scope first op place fits =>
    rw [verifyAll_singleton] at ok
    cases path with
    | op rest =>
      obtain rfl := rest.of_nil
      rcases Op.verify_alike alike ok with ⟨last, there, like⟩ | apart
      · exact .single (m := .op op place) there like
      · refine .inr ⟨[], op, place, [], j, ⟨.op op place, k, offset⟩, rfl, rfl, ?_, rfl, alike, apart⟩
        exact seen (by simp [visitsAll_singleton, Node.visits])
  | call =>
    rw [verifyAll_singleton] at ok
    obtain ⟨s, applied, rfl⟩ := Node.verify_call_eq_ok.1 ok
    cases path with
    | call rest =>
      obtain rfl := rest.of_nil
      obtain ⟨t, there, like⟩ := Contract.applyTo_alike alike.shape applied
      exact .single (Node.verify_call_eq_ok.2 ⟨t, there, rfl⟩) ⟨like, alike.sightings⟩
  | ifTrue body inner =>
    rw [verifyAll_singleton] at ok
    obtain ⟨s, top, arm, same⟩ := Node.verify_ifTrue_eq_ok.1 ok
    simp only [visitsAll_singleton, Node.visits, top, List.cons_subset] at seen
    have either := follows_singleArm top same (body.sightings_eq arm :)
      (fun _ _ like way => inner arm seen.2 like way) alike
    cases path with
    | ifTrueTaken way rest =>
      obtain rfl := rest.of_nil
      rw [List.append_nil]
      exact either _ (.inr way)
    | ifTruePassed rest =>
      obtain rfl := rest.of_nil
      exact either _ (.inl rfl)
  | ifFalse body inner =>
    rw [verifyAll_singleton] at ok
    obtain ⟨s, top, arm, same⟩ := Node.verify_ifFalse_eq_ok.1 ok
    simp only [visitsAll_singleton, Node.visits, top, List.cons_subset] at seen
    have either := follows_singleArm top same (body.sightings_eq arm :)
      (fun _ _ like way => inner arm seen.2 like way) alike
    cases path with
    | ifFalseTaken way rest =>
      obtain rfl := rest.of_nil
      rw [List.append_nil]
      exact either _ (.inr way)
    | ifFalsePassed rest =>
      obtain rfl := rest.of_nil
      exact either _ (.inl rfl)
  | ifElse yes no left right =>
    rw [verifyAll_singleton] at ok
    obtain ⟨s, afterYes, afterNo, top, armYes, armNo, same, rfl⟩ := Node.verify_ifElse_eq_ok.1 ok
    simp only [visitsAll_singleton, Node.visits, top, armYes, List.cons_subset,
      List.append_subset] at seen
    have keptYes : afterYes.sightings = k.sightings := (yes.sightings_eq armYes :)
    have keptNo : afterNo.sightings = afterYes.sightings := (no.sightings_eq armNo :)
    cases path with
    | ifElseYes way rest =>
      obtain rfl := rest.of_nil
      rw [List.append_nil]
      refine (Follows.choose alike top).cons fun i like => ?_
      rw [keptNo]
      exact left armYes seen.2.1 like way
    | ifElseNo way rest =>
      obtain rfl := rest.of_nil
      rw [List.append_nil]
      refine (Follows.choose alike top).cons fun i like => ?_
      have start : Knowledge.Alike { afterYes with shape := s } i :=
        ⟨like.shape, keptYes ▸ like.sightings⟩
      refine (right armNo seen.2.2 start way).imp fun last final => ?_
      exact ⟨same.alike.trans final.shape, final.sightings⟩
  | @loop scope middle stop p condition body label place sound left right ihl ihr =>
    rw [verifyAll_singleton] at ok
    have static := sound.isRuntime_eq_false
    obtain ⟨below, tested, s, round, rest, top, test, number, same, turn, again, next, rfl⟩ :=
      (Node.verify_loop_eq_ok static).1 ok
    have pinned : (Op.pin p).verify place k = .ok { k with shape := below } :=
      (Knowledge.bindPin_eq_ok static).2 ⟨below, top, rfl⟩
    have keptTest : tested.sightings = k.sightings := (left.sightings_eq test :)
    have keptTurn : round.sightings = tested.sightings := (right.sightings_eq turn :)
    have back := again.of_push next
    simp only [visitsAll_singleton, Node.visits, Knowledge.enter_of_dropValue static top, test,
      Knowledge.proceed_of_matches { k with shape := below } number same, List.cons_subset,
      List.append_subset] at seen
    -- From a stack like the one below the pin's value to one like it, as far as it is tested.
    have testing : ∀ {xs i}, Path condition xs → Knowledge.Alike ⟨below, k.sightings⟩ i →
        Follows visits (loopTest p place xs) i { tested with shape := s } := by
      intro xs i through like
      exact follows_loopTest static (fun i like => ihl test seen.2.1 like through) number like
    cases path with
    | @loop _ _ _ _ _ _ rounds last moves tests turns way tail =>
      obtain rfl := tail.of_nil
      have around : ∀ r ∈ rounds, ∀ i, Knowledge.Alike ⟨below, k.sightings⟩ i →
          Follows visits (loopRound p place r) i ⟨below, k.sightings⟩ := by
        intro r mem i like
        exact follows_loopRound static (testing (tests r mem) like)
          (fun i like => ihr turn seen.2.2 like (turns r mem)) next back (keptTurn.trans keptTest)
      have onward : Follows visits
          (.op (.pin p) place :: (rounds.flatMap (loopRound p place) ++ loopTest p place last)) j
          { tested with shape := s } := by
        refine (Follows.pinning rfl alike pinned).cons fun i like => ?_
        exact (Follows.flatMap around like).append fun i like => testing way like
      exact onward.append fun i like =>
        follows_loopEnd static (back.alike.symm.trans same.alike) keptTurn like
  | @bind scope first middle stop pins body place fits laid inner ih =>
    rw [List.append_assoc] at ok seen path
    obtain ⟨bound, pinned, rest⟩ := verifyAll_append_eq_ok.1 ok
    obtain ⟨last, through, released⟩ := verifyAll_append_eq_ok.1 rest
    obtain ⟨as, more, rfl, pathPins, path⟩ := path.split
    obtain ⟨bs, cs, rfl, pathBody, pathUnpins⟩ := path.split
    rw [visitsAll_append, pinned] at seen
    simp only [visitsAll_append, through, List.append_subset] at seen
    have pinsAre : Reader.pinNodes pins place = (pins.reverse.map Op.pin).map (.op · place) := by
      simp [Reader.pinNodes]
    have unpinsAre : Reader.unpinNodes pins place = (pins.map Op.unpin).map (.op · place) := by
      simp [Reader.unpinNodes]
    rw [pinsAre] at pinned pathPins
    rw [unpinsAre] at released pathUnpins
    rw [pathPins.of_ops, pathUnpins.of_ops]
    refine (follows_pinnings (by simp [Op.isPinning]) alike pinned).append fun i like => ?_
    refine (ih through seen.2.1 like pathBody).append fun i like => ?_
    exact follows_pinnings (by simp [Op.isPinning]) like released

end Bodies

/-! ## Programs -/

/-- **Every path of a verified function verifies** from the same stack and ends in one that compares
equal to the outputs, as long as it meets no access through an address that leads to other values
than the one verification met there. -/
theorem Program.path_verifies {limits : Limits} {text file : String} {p : Program}
    {tables : Tables} (ok : Program.ofText limits text file = .ok (p, tables)) {f : Func}
    (mem : f ∈ p.functions ++ [p.main]) {σ last : Sightings} (accepted : f.verify σ = .ok last)
    {moves : List Move} (path : Path f.body moves) :
    (∃ after, verifyMoves moves ⟨.ofTys f.contract.inputs f.place, σ⟩ = .ok after
        ∧ ((Shape.ofTys f.contract.outputs f.place).diff after.shape).isEqual = true)
      ∨ Strays (visitsAll f.body 0 ⟨.ofTys f.contract.inputs f.place, σ⟩) moves
          ⟨.ofTys f.contract.inputs f.place, σ⟩ := by
  obtain ⟨scanned, -, spelled⟩ := Program.ofText_eq_ok ok
  obtain ⟨first, stop, body⟩ := (Program.formed_of_ofTokens spelled).scoped f mem
  obtain ⟨after, verified, same, -⟩ := Func.verify_eq_ok.1 accepted
  rcases body.path_follows verified (fun _ mem => mem) (.refl _) path with ⟨end_, there, like⟩ | strays
  · exact .inl ⟨end_, there, Shape.isEqual_diff.2 (same.of_alike like.shape)⟩
  · exact .inr strays

/-- The code `2 loop i 0 > do i 1 - ; drop`. -/
def countdown : List Node :=
  [.op (.number 2) ⟨1, 1, "t"⟩,
    .loop ⟨"i", .number, 0⟩ [.op (.number 0) ⟨1, 10, "t"⟩, .op (.binary .gt) ⟨1, 12, "t"⟩]
      [.op (.pinned ⟨"i", .number, 0⟩) ⟨1, 17, "t"⟩, .op (.number 1) ⟨1, 19, "t"⟩,
        .op (.binary .sub) ⟨1, 21, "t"⟩] 0 ⟨1, 3, "t"⟩,
    .op .drop ⟨1, 25, "t"⟩]

theorem ofText_countdown : Program.ofText {} "2 loop i 0 > do i 1 - ; drop" "t"
    = .ok (⟨[], .entry countdown ⟨1, 1, "t"⟩⟩, .empty) := by
  rfl

/-- The way around the loop of `countdown`. -/
def countdownRound : List Move × List Move :=
  ([.op (.number 0) ⟨1, 10, "t"⟩, .op (.binary .gt) ⟨1, 12, "t"⟩],
    [.op (.pinned ⟨"i", .number, 0⟩) ⟨1, 17, "t"⟩, .op (.number 1) ⟨1, 19, "t"⟩,
      .op (.binary .sub) ⟨1, 21, "t"⟩])

/-- Every way through `countdown`, by how often it goes around. -/
theorem path_countdown (rounds : Nat) : Path countdown
    (.op (.number 2) ⟨1, 1, "t"⟩ :: (.op (.pin ⟨"i", .number, 0⟩) ⟨1, 3, "t"⟩ ::
      ((List.replicate rounds countdownRound).flatMap (loopRound ⟨"i", .number, 0⟩ ⟨1, 3, "t"⟩)
        ++ loopTest ⟨"i", .number, 0⟩ ⟨1, 3, "t"⟩ countdownRound.1)
      ++ [.op (.pinned ⟨"i", .number, 0⟩) ⟨1, 3, "t"⟩, .op (.unpin ⟨"i", .number, 0⟩) ⟨1, 3, "t"⟩,
        .op .drop ⟨1, 25, "t"⟩])) := by
  refine .op (.loop ?_ ?_ (.op (.op .nil)) (.op .nil))
  · intro r mem
    rw [List.eq_of_mem_replicate mem]
    exact .op (.op .nil)
  · intro r mem
    rw [List.eq_of_mem_replicate mem]
    exact .op (.op (.op .nil))

/-- Two rounds of `countdown` verify, or reach an access that they do not have. -/
theorem path_verifies_countdown :
    ∃ p tables moves, Program.ofText {} "2 loop i 0 > do i 1 - ; drop" "t" = .ok (p, tables)
      ∧ p.main ∈ p.functions ++ [p.main] ∧ p.main.verify .empty = .ok .empty
      ∧ Path p.main.body moves ∧ moves.length = 25
      ∧ ((∃ after, verifyMoves moves ⟨.ofTys p.main.contract.inputs p.main.place, .empty⟩ = .ok after
          ∧ ((Shape.ofTys p.main.contract.outputs p.main.place).diff after.shape).isEqual = true)
        ∨ Strays (visitsAll p.main.body 0 ⟨.ofTys p.main.contract.inputs p.main.place, .empty⟩) moves
          ⟨.ofTys p.main.contract.inputs p.main.place, .empty⟩) := by
  have here : (Func.entry countdown ⟨1, 1, "t"⟩) ∈ [] ++ [Func.entry countdown ⟨1, 1, "t"⟩] :=
    List.mem_singleton_self _
  have accepted : (Func.entry countdown ⟨1, 1, "t"⟩).verify .empty = .ok .empty := by
    decide +kernel
  exact ⟨_, _, _, ofText_countdown, here, accepted, path_countdown 2, rfl,
    Program.path_verifies ofText_countdown here accepted (path_countdown 2)⟩

/-- A branch that leaves the address of a record in one arm and some address in the other. -/
def splitAddress : List Node :=
  [.op (.number 1) ⟨1, 56, "t"⟩,
    .ifElse [.op (.memory "mem_1" .pointer) ⟨1, 61, "t"⟩]
      [.op (.memory "mem_0" (.pointerTo (.record ⟨"P", [⟨"a", .number⟩, ⟨"b", .number⟩]⟩)))
        ⟨1, 68, "t"⟩] 0 ⟨1, 58, "t"⟩,
    .op (.load .word) ⟨1, 72, "t"⟩, .op .print ⟨1, 74, "t"⟩]

/-- Verification goes on from the arm that leaves some address; what the other one's address leads to
is two words, and no number to print. -/
theorem path_of_other_arm_fails :
    ∃ tables moves, Program.ofText {}
        "struct P a:Number b:Number ; memory m P ; memory n 8 ; 1 if n else m ; @ print" "t"
          = .ok (⟨[], .entry splitAddress ⟨1, 1, "t"⟩⟩, tables)
      ∧ (Func.entry splitAddress ⟨1, 1, "t"⟩).verify .empty = .ok .empty
      ∧ Path splitAddress moves
      ∧ ∀ after, verifyMoves moves ⟨.ofTys [] ⟨1, 1, "t"⟩, .empty⟩ ≠ .ok after := by
  refine ⟨_, _, rfl, by decide +kernel, .op (.ifElseNo (.op .nil) (.op (.op .nil))), ?_⟩
  intro after ok
  have verified : _ = true := congrArg (·.toOption.isSome) ok
  revert verified
  decide +kernel

end PinnedStack
