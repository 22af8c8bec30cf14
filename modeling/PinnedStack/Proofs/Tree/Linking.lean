import PinnedStack.Proofs.Tree.Definitions
import PinnedStack.Proofs.Tree.Recorded
import PinnedStack.Proofs.Emission.Labels
import PinnedStack.Proofs.Typing.Separate

/-!
# Calls lead to the function of their name

* `Head.Describes` — a function is read as it was recorded. `Reader.Described` is the invariant of
  the second reading; `Reader.described_moves` keeps it.
* `Scoped.known_of_mem` — the calls of a well-scoped body are to known functions.
* `Program.readings_of_ofTokens` — the functions of a program are those of the first reading, in
  order.
* `Program.readings_agree` — both readings together.
-/

namespace PinnedStack

/-- A function that was read as it was recorded. -/
structure Head.Describes (h : Head) (f : Func) : Prop where
  call : f.call = h.call
  named : f.named = h.signature.params.isSome
  place : f.place = h.place

namespace Reader

/-- Every function, read or not, is one of those that were recorded. -/
structure Described (heads : List Head) (r : Reader) : Prop where
  functions : ∀ f ∈ r.functions, ∃ h ∈ heads, h.Describes f
  blocks : ∀ b ∈ r.blocks, ∀ h, b.frame.head? = some h → h ∈ heads
  ahead : ∀ h ∈ r.heads, h ∈ heads
  current : ∀ h opener, r.phase = .head h opener → h ∈ heads

variable {heads : List Head} {r next : Reader} {g : Globals} {t : Token}

/-- A step that leaves the functions alone and opens the body of none. -/
theorem Described.of_still (h : r.Described heads) (functions : next.functions = r.functions)
    (blocks : ∀ b ∈ next.blocks, b.frame.head? = none ∨ ∃ c ∈ r.blocks, c.frame = b.frame)
    (ahead : next.heads = r.heads) (phase : ∀ h opener, next.phase ≠ .head h opener) :
    next.Described heads := by
  refine ⟨functions ▸ h.functions, fun b mem head here => ?_, ahead ▸ h.ahead,
    fun head opener eq => absurd eq (phase head opener)⟩
  rcases blocks b mem with none | ⟨c, held, same⟩
  · rw [none] at here
    cases here
  · exact h.blocks c held head (same ▸ here)

/-- Nodes that are added leave the frames of the open blocks alone. -/
theorem exists_frame_of_mem_add {nodes : List Node} :
    ∀ b ∈ (r.add nodes).blocks, ∃ c ∈ r.blocks, c.frame = b.frame := by
  unfold add
  split
  · rename_i none
    simp [none]
  · rename_i b outer blocks
    intro c mem
    rw [blocks]
    rcases List.mem_cons.1 mem with rfl | mem
    · exact ⟨b, List.mem_cons_self .., rfl⟩
    · exact ⟨c, List.mem_cons_of_mem _ mem, rfl⟩

theorem described_close (h : r.Described heads) (phase : r.phase = .statement) {b : OpenBlock}
    {outer : List OpenBlock} (blocks : r.blocks = b :: outer)
    (closed : r.close b outer = some next) : next.Described heads := by
  have held : ∀ c ∈ outer, c ∈ r.blocks := fun c mem => blocks ▸ List.mem_cons_of_mem _ mem
  obtain ⟨-, supply, nodes, rfl⟩ | ⟨head, opener, firstSlot, pins, frame, rfl⟩ :=
    close_cases closed
  · refine h.of_still (by simp) (fun c mem => ?_) (by simp) (by simp [phase])
    obtain ⟨d, inside, same⟩ := exists_frame_of_mem_add c mem
    exact .inr ⟨d, held d inside, same⟩
  · refine ⟨fun f mem => ?_, fun c mem => h.blocks c (held c mem), h.ahead, by simp [phase]⟩
    rcases List.mem_append.1 mem with mem | mem
    · exact h.functions f mem
    · obtain rfl := List.mem_singleton.1 mem
      have known := h.blocks b (blocks ▸ List.mem_cons_self ..) head (by rw [frame]; rfl)
      exact ⟨head, known, rfl, rfl, rfl⟩

/-- One token leaves every function as it was recorded. -/
theorem described_moves (h : r.Described heads) (moves : Moves g r t next) :
    next.Described heads := by
  cases moves with
  | leaf phase =>
    refine h.of_still (by simp) (fun b mem => .inr ?_) (by simp) (by simp [phase])
    obtain ⟨c, held, same⟩ := exists_frame_of_mem_add b mem
    exact ⟨c, held, same⟩
  | branch phase =>
    refine h.of_still rfl (fun b mem => ?_) rfl (by simp [openBranch, push, phase])
    rcases List.mem_cons.1 mem with rfl | mem
    · exact .inl rfl
    · exact .inr ⟨b, mem, rfl⟩
  | loop => exact h.of_still rfl (fun b mem => .inr ⟨b, mem, rfl⟩) rfl (by simp)
  | bind => exact h.of_still rfl (fun b mem => .inr ⟨b, mem, rfl⟩) rfl (by simp)
  | stray => exact h
  | close phase kind blocks closed => exact described_close h phase blocks closed
  | otherwise phase kind blocks =>
    refine h.of_still rfl (fun b mem => ?_) rfl (by simp [phase])
    rcases List.mem_cons.1 mem with rfl | mem
    · exact .inl rfl
    · exact .inr ⟨b, blocks ▸ List.mem_cons_of_mem _ mem, rfl⟩
  | body phase kind blocks =>
    refine h.of_still rfl (fun b mem => ?_) rfl (by simp [phase])
    rcases List.mem_cons.1 mem with rfl | mem
    · exact .inl rfl
    · exact .inr ⟨b, blocks ▸ List.mem_cons_of_mem _ mem, rfl⟩
  | function phase kind blocks ahead =>
    have known : ∀ other ∈ r.heads, other ∈ heads := h.ahead
    rw [ahead] at known
    refine ⟨h.functions, h.blocks, fun other mem => known other (List.mem_cons_of_mem _ mem), ?_⟩
    intro other opener eq
    cases eq
    exact known _ (List.mem_cons_self ..)
  | definition => exact h.of_still rfl (fun b mem => .inr ⟨b, mem, rfl⟩) rfl (by simp)
  | inHead => exact h
  | headDone phase kind opened =>
    obtain ⟨-, -, -, rfl⟩ := openFunction_eq_ok.1 opened
    refine ⟨h.functions, fun b mem head here => ?_, h.ahead, by simp⟩
    rcases List.mem_cons.1 mem with rfl | mem
    · cases here
      exact h.current _ _ phase
    · exact h.blocks b mem head here
  | inPlain => exact h
  | plainDone => exact h.of_still rfl (fun b mem => .inr ⟨b, mem, rfl⟩) rfl (by simp)
  | iterator =>
    refine h.of_still rfl (fun b mem => ?_) rfl (by simp)
    rcases List.mem_cons.1 mem with rfl | mem
    · exact .inl rfl
    · exact .inr ⟨b, mem, rfl⟩
  | name => exact h.of_still rfl (fun b mem => .inr ⟨b, mem, rfl⟩) rfl (by simp)
  | within =>
    refine h.of_still (by simp [push]) (fun b mem => ?_) (by simp [push]) (by simp)
    rcases List.mem_cons.1 mem with rfl | mem
    · exact .inl rfl
    · exact .inr (exists_frame_of_mem_add b mem)

end Reader

/-- The calls of a well-scoped body are to known functions. -/
theorem Scoped.known_of_mem {callees : List Call} {scope : List Pin} {first stop : Nat}
    {nodes : List Node} (h : Scoped callees scope first stop nodes) :
    ∀ c place, .call c place ∈ nodes → c ∈ callees := by
  induction h with
  | nil => simp
  | append _ _ left right =>
    exact fun c place mem => (List.mem_append.1 mem).elim (left c place) (right c place)
  | op => simp
  | call known =>
    intro c place mem
    cases List.mem_singleton.1 mem
    exact known
  | ifTrue => simp
  | ifFalse => simp
  | ifElse => simp
  | loop => simp
  | bind _ _ _ inner =>
    intro c place mem
    simp only [List.mem_append, Reader.pinNodes, Reader.unpinNodes, List.mem_map, reduceCtorEq,
      and_false, exists_false, false_or, or_false] at mem
    exact inner c place mem

namespace Program

variable {p : Program} {limits : Limits} {tables : Tables}

/-- Both readings of a text and how far they get. -/
theorem readings_of_ofTokens {text : Scanned} (ok : Program.ofTokens limits text = .ok (p, tables)) :
    ∃ survey, Survey.ofTokens limits text = .ok survey
      ∧ Reader.texts survey.globals (.start survey) text.tokens
        = (Survey.start limits).texts text.tokens
      ∧ List.Forall₂ Head.Describes survey.heads p.functions := by
  have formed := Program.formed_of_ofTokens ok
  obtain ⟨survey, r, first, second, -, rfl, -⟩ := ofTokens_eq_ok ok
  have sound := Survey.ofTokens_sound first
  obtain ⟨whole, -⟩ := Survey.ofTokens_eq_ok first
  have start := Reader.nested_start (survey.heads.map Head.call) sound.heads (Survey.run_book whole)
  have agree : Agree (.start limits) (.start survey) := ⟨rfl, rfl⟩
  refine ⟨survey, first, ?_, ?_⟩
  · unfold Reader.texts Survey.texts
    rw [agree.trace_eq sound.globals start whole second]
  · have begun : (Reader.start survey).Described survey.heads :=
      ⟨by simp [Reader.start], by simp [Reader.start], fun _ mem => mem, by simp [Reader.start]⟩
    have described := Reader.run_induct Reader.described_moves begun second
    have count := (agree.run sound.globals start whole second).1.count
    refine List.forall₂_iff_get.2 ⟨count, fun i here there => ?_⟩
    -- A function is described by a head of its label, and the label tells the index of both.
    obtain ⟨h, mem, describes⟩ := described.functions _ (List.get_mem r.functions ⟨i, there⟩)
    obtain ⟨⟨j, bound⟩, rfl⟩ := List.mem_iff_get.1 mem
    have labelled : ∀ k (held : k < survey.heads.length),
        (survey.heads.get ⟨k, held⟩).signature.label = functionLabel k := by
      intro k held
      have label := congrArg (·[k]?) sound.labels
      simpa [held] using label
    have read : (r.functions.get ⟨i, there⟩).label = functionLabel i := by
      have label := congrArg (·[i]?) formed.labels
      simpa [there] using label
    have same : (r.functions.get ⟨i, there⟩).label = functionLabel j := by
      have label := congrArg Call.label describes.call
      exact label.trans (labelled j bound)
    have index : i = j := functionLabel_injective (read.symm.trans same)
    subst index
    exact describes

/-- **Both readings of a text agree.** A text that is read as a program has one function for each
text of a function, in order, with the name and the signature that this text gives, and the labels
count them. Both readings take the same tokens for each definition. Each call is to the one function
of its name. And no text whatever has a function that the first reading did not record. -/
theorem readings_agree (limits : Limits) (source file : String) :
    (∀ p tables, Program.ofText limits source file = .ok (p, tables) →
      ∃ scanned survey, Scanned.ofText source file = .ok scanned
        ∧ Survey.ofTokens limits scanned = .ok survey
        ∧ Reader.texts survey.globals (.start survey) scanned.tokens
          = (Survey.start limits).texts scanned.tokens
        ∧ List.Forall₂ (fun text f => ∃ h, Declares survey.globals text h ∧ h.Describes f)
          (((Survey.start limits).texts scanned.tokens).filter isFunctionText) p.functions
        ∧ p.functions.map (·.label) = (List.range p.functions.length).map functionLabel
        ∧ ∀ f ∈ p.functions ++ [p.main], ∀ block ∈ f.blocks, ∀ c place, .call c place ∈ block →
          ∃ g ∈ p.functions, g.call = c ∧ ∀ h ∈ p.functions, h.name = c.name → h = g)
      ∧ ∀ place, Program.ofText limits source file ≠ .error (.malformed place .unrecorded) := by
  refine ⟨fun p tables ok => ?_, fun place refused => ?_⟩
  · obtain ⟨scanned, lexed, spelled⟩ := Program.ofText_eq_ok ok
    have formed := Program.formed_of_ofTokens spelled
    obtain ⟨survey, first, texts, describes⟩ := readings_of_ofTokens spelled
    refine ⟨scanned, survey, lexed, first, texts, ?_, formed.labels, ?_⟩
    · have declares := Survey.declares_texts first
      refine List.forall₂_iff_get.2
        ⟨declares.length_eq.trans describes.length_eq, fun i here there => ?_⟩
      have mid : i < survey.heads.length := declares.length_eq ▸ here
      exact ⟨_, (List.forall₂_iff_get.1 declares).2 i here mid,
        (List.forall₂_iff_get.1 describes).2 i mid there⟩
    · intro f mem block inside c place call
      have known : c ∈ p.functions.map Func.call := by
        obtain ⟨low, high, body⟩ := formed.scoped f mem
        rcases List.mem_cons.1 inside with rfl | inside
        · exact body.known_of_mem c place call
        · obtain ⟨_, _, _, inner⟩ := body.of_mem_blocksOf block inside
          exact inner.known_of_mem c place call
      obtain ⟨g, held, rfl⟩ := List.mem_map.1 known
      refine ⟨g, held, rfl, fun h there same => ?_⟩
      have names : survey.heads.map (·.name) = p.functions.map (·.name) := by
        refine List.forall₂_eq_eq_eq ▸ List.forall₂_map_left_iff.2 (List.forall₂_map_right_iff.2 ?_)
        exact describes.imp fun _ _ describes => (congrArg Call.name describes.call).symm
      have names := names ▸ (Survey.ofTokens_known first).names
      exact List.inj_on_of_nodup_map names there held same
  · have cause := Program.recorded_ofText limits source file _ refused
    simp at cause

end Program

/-- A constant and two functions; the first calls the second, which has a named input. -/
def forwardCall : String :=
  "const k 2 ; : f ( Number -- Number ) if g g else k ; ; : g ( n:Number -- Number ) n ; 3 f"

/-- Its two functions, with their labels and whether their inputs have names, and where the calls
lead. -/
theorem readings_agree_forwardCall :
    ∃ p tables, Program.ofText {} forwardCall "t" = .ok (p, tables)
      ∧ p.functions.map (fun f => (f.label, f.name, f.named))
        = [("fn_0", "f", false), ("fn_1", "g", true)]
      ∧ ∀ f ∈ p.functions ++ [p.main], ∀ block ∈ f.blocks, ∀ c place, .call c place ∈ block →
        ∃ g ∈ p.functions, g.call = c ∧ ∀ h ∈ p.functions, h.name = c.name → h = g := by
  obtain ⟨p, tables, spelled, holds⟩ := Except.exists_eq_ok (x := Program.ofText {} forwardCall "t")
    (q := fun r => r.1.functions.map (fun f => (f.label, f.name, f.named))
      == [("fn_0", "f", false), ("fn_1", "g", true)]) (by decide +kernel)
  obtain ⟨_, _, -, -, -, -, -, calls⟩ := (Program.readings_agree {} forwardCall "t").1 p tables spelled
  exact ⟨p, tables, spelled, beq_iff_eq.1 holds, calls⟩

end PinnedStack
