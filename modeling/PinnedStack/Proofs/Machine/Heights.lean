import PinnedStack.Proofs.Emission.Levels
import PinnedStack.Proofs.Machine.Transparency

/-!
# The data stack is as high as verification says

* `Loaded.started` — what a program does before its main code puts the main code to work.
* `Config.base` — where the data stack ends below what the activation at work was given.
* `Working.base_eq` — the words of the function at work lie between `rsp` and there.
* `belongs` — instructions of a body without a mark of its function take nothing from the data stack.
* `Program.stack_heights` — in a program that is accepted the data stack is at every node as high as
  verification found it, and no instruction reaches below the words of its own activation.
-/

namespace PinnedStack

open Asm

/-! ## The start -/

/-- The state at the start of the main code, from that in front of the code before it. -/
def Asm.State.started (L : Layout) (s : State) : State :=
  { (s.set .r15 (L.symbol "pins")).set .rax (L.symbol "ret_stack_end") with
    mem := s.mem.store (L.symbol "ret_stack_rsp") (L.symbol "ret_stack_end") }.goto (s.pc + 3)

section Start

variable {M : Image} {p : Program} {tables : Tables} {limits : Limits} {s : State} {n : Nat}

/-- What a program does before its main code sets up the pins and the return stack. -/
theorem Asm.Image.Forced.start {whole : List MarkedLine} {f : Func} {calls : List Asm.Frame}
    (lines : M.lines = whole.map Prod.fst) (stands : Stands whole f s.pc) (main : f.isMain = true) :
    M.Forced whole ⟨s, calls⟩ ⟨s.started M.layout, calls⟩ := by
  have front := stands.front
  rw [Func.front, main, if_pos rfl] at front
  have whole' : Placed whole s.pc (unmarked (instrs startCode) ++ []) := by rwa [List.append_nil]
  exact .effect lines whole'.first rfl (.effect lines whole'.next.first rfl
    (.effect lines whole'.next.next.first rfl .refl))

/-- At the start of its main code the main code is at work. -/
theorem Loaded.started (loaded : Loaded M p tables limits)
    (stands : Stands (p.marked tables limits) p.main s.pc)
    (data : M.layout.dataStack ≤ (s.regs .rsp).toNat) :
    M.Reaches (p.marked tables limits)
      (AtWork M p (p.marked tables limits) p.main (s.regs .rsp).toNat) n ⟨s, []⟩ := by
  obtain ⟨text, ok⟩ := loaded.spelled
  have formed := Program.formed_of_ofTokens ok
  have main := Func.isMain_main formed
  have bounds := loaded.fits.returnPointer_lt
  refine (Image.Forced.start loaded.marked stands main).reaches (.inl data) fun _ => .here ?_
  obtain ⟨rest, body, opens⟩ := stands.body
  have start := body.leads (.nodes _ (opens p.Steady))
  rw [Func.front, main, if_pos rfl] at start
  obtain ⟨k, cut, same⟩ := start
  refine ⟨p.main, k, M.layout.returnEnd, _, cut, ?_, data, ⟨?_, ?_, ?_⟩, fun steady => ?_, .first⟩
  · exact loaded.fits.pins
  · exact (Memory.load_store_same ..).trans loaded.fits.stackEnd
  · exact bounds.2.2.1
  · exact Nat.le_refl _
  · have none : k = 0 := by rw [same steady, formed.entry]; rfl
    rw [none]
    rfl

end Start

/-! ## Activations -/

/-- Where the data stack was when the activation at work was entered: the first one at `top`, every
other one where `rax` carried it over in front of its call. -/
def Asm.Config.entered (top : Nat) (c : Config) : Nat :=
  match c.calls with
  | [] => top
  | fr :: _ => (fr.state.regs .rax).toNat

/-- Where the data stack ends below the inputs of the activation at work. -/
def Asm.Config.base (top : Nat) (f : Func) (c : Config) : Nat := c.entered top + 8 * f.contract.takes

section Heights

variable {M : Image} {p : Program} {tables : Tables} {limits : Limits} {f : Func} {top : Nat}
  {h cell base n : Nat} {c : Config}

theorem Working.calls_eq_nil (loaded : Loaded M p tables limits) {whole : List MarkedLine}
    (w : Working M p whole p.main top c p.main h cell base) : c.calls = [] := by
  obtain ⟨text, ok⟩ := loaded.spelled
  obtain ⟨s, calls⟩ := c
  obtain ⟨-, -, -, -, -, waiting⟩ := w
  cases waiting with
  | first => rfl
  | call callee =>
    have inner := loaded.inner callee
    rw [Func.isMain_main (Program.formed_of_ofTokens ok)] at inner
    cases inner

theorem Working.base_eq {whole : List MarkedLine} (main : p.main.contract = .empty)
    (w : Working M p whole p.main top c f h cell base) : base = c.base top f := by
  obtain ⟨s, calls⟩ := c
  obtain ⟨-, -, -, -, -, waiting⟩ := w
  cases waiting with
  | first =>
    rw [Config.base, main]
    rfl
  | call => rfl

end Heights

/-! ## Instructions without marks -/

/-- An instruction has a mark of a function, or it takes nothing from the data stack. -/
def Belongs (f : Func) : Instr × Option Mark → Prop
  | (_, some (g, _)) => g = f
  | (i, none) => i.needs = 0

theorem belongs_markCode (f : Func) (is : List Instr) (h : Nat) :
    ∀ item ∈ itemsOf (markCode f is h), Belongs f item := by
  induction is generalizing h with
  | nil => simp [markCode]
  | cons i is ih => exact List.forall_mem_cons.2 ⟨rfl, ih _⟩

theorem belongs_call (f : Func) (call : Call) (h : Nat) :
    ∀ item ∈ itemsOf (markFirst (f, h) (instrs call.code)), Belongs f item := by
  have rest : ∀ i ∈ call.code.tail, i.needs = 0 := by
    intro i mem
    simp only [Call.code, List.tail_cons, List.mem_cons, List.not_mem_nil, or_false] at mem
    rcases mem with rfl | rfl | rfl | rfl <;> rfl
  have items : itemsOf (markFirst (f, h) (instrs call.code))
      = (.movReg .rax .rsp, some (f, h)) :: call.code.tail.map (·, none) := rfl
  rw [items]
  refine List.forall_mem_cons.2 ⟨rfl, fun item mem => ?_⟩
  obtain ⟨i, here, rfl⟩ := List.mem_map.1 mem
  exact rest i here

mutual

theorem Node.belongs (f : Func) : (n : Node) → (h : Nat) →
    ∀ item ∈ itemsOf (n.marked f h), Belongs f item
  | .op op _, h => belongs_markCode f op.code h
  | .call call _, h => belongs_call f call h
  | .ifTrue body _ _, h => by
    simp only [Node.marked, itemsOf_append, itemsOf_instr, itemsOf_label, itemsOf_comment,
      List.cons_append, List.forall_mem_append, List.forall_mem_cons]
    exact ⟨⟨belongs_markCode f testTop h, rfl, belongs f body _⟩, by simp⟩
  | .ifFalse body _ _, h => by
    simp only [Node.marked, itemsOf_append, itemsOf_instr, itemsOf_label, itemsOf_comment,
      List.cons_append, List.forall_mem_append, List.forall_mem_cons]
    exact ⟨⟨belongs_markCode f testTop h, rfl, belongs f body _⟩, by simp⟩
  | .ifElse yes no _ _, h => by
    simp only [Node.marked, itemsOf_append, itemsOf_instr, itemsOf_label, itemsOf_comment,
      List.cons_append, List.forall_mem_append, List.forall_mem_cons]
    exact ⟨⟨⟨belongs_markCode f testTop h, rfl, belongs f yes _⟩, rfl, belongs f no _⟩, by simp⟩
  | .loop p condition body _ _, h => by
    simp only [Node.marked, itemsOf_append, itemsOf_instr, itemsOf_label, itemsOf_comment,
      List.cons_append, List.forall_mem_append, List.forall_mem_cons]
    exact ⟨⟨⟨⟨⟨⟨belongs_markCode f _ _, belongs_markCode f _ _⟩, belongs f condition _⟩,
      belongs_markCode f testTop _⟩, rfl, belongs f body _⟩, belongs_markCode f _ _⟩, rfl,
      belongs_markCode f _ _⟩

theorem belongs (f : Func) : (nodes : List Node) → (h : Nat) →
    ∀ item ∈ itemsOf (markedOf f nodes h), Belongs f item
  | [], _ => by simp [markedOf]
  | n :: ns, h => by
    rw [markedOf, itemsOf_append, List.forall_mem_append]
    exact ⟨n.belongs f h, belongs f ns _⟩

end

/-! ## Heights -/

section Program

variable {M : Image} {p : Program} {tables : Tables} {limits : Limits} {f : Func} {s : State}
  {h n : Nat} {d : Config}

theorem check_eq_ok {text file : String} :
    check limits text file = .ok (p, tables) ↔
      Program.ofText limits text file = .ok (p, tables) ∧ p.verify = .ok () := by
  simp only [check, Except.bind_eq_ok]
  constructor
  · rintro ⟨⟨q, data⟩, spelled, _, accepted, eq⟩
    cases eq
    exact ⟨spelled, accepted⟩
  · rintro ⟨spelled, accepted⟩
    exact ⟨_, spelled, (), accepted, rfl⟩

/-- An instruction takes no more than its level, where the program is steady. -/
theorem Loaded.needs_le (loaded : Loaded M p tables limits) (steady : p.Steady) {q : Nat} {i : Instr}
    (found : (itemsOf (p.marked tables limits))[q]? = some (i, some (f, h))) : i.needs ≤ h := by
  obtain ⟨text, ok⟩ := loaded.spelled
  obtain ⟨-, site⟩ := Program.sited ok ⟨i, found⟩
  have same : ∀ {k : Instr} {m : Option Mark},
      (itemsOf (p.marked tables limits))[q]? = some (k, m) → i = k := by
    intro k m here
    rw [found] at here
    cases here
    rfl
  cases site with
  | plain fetch _ _ enough =>
    obtain rfl := same fetch
    exact enough steady
  | routine fetch =>
    obtain rfl := same fetch
    exact Nat.zero_le h
  | jump fetch =>
    obtain rfl := same fetch
    exact Nat.zero_le h
  | jmp fetch =>
    obtain rfl := same fetch
    exact Nat.zero_le h
  | call placed =>
    obtain rfl := same placed.first
    exact Nat.zero_le h
  | leave placed =>
    unfold Func.ending at placed
    split at placed
    · obtain rfl := same placed.first
      exact Nat.zero_le h
    · obtain rfl := same placed.first
      exact Nat.zero_le h

section Run

variable (loaded : Loaded M p tables limits) (stands : Stands (p.marked tables limits) p.main s.pc)
  (data : M.layout.dataStack ≤ (s.regs .rsp).toNat) (run : M.Runs n ⟨s, []⟩ d)

include loaded stands data run

theorem Loaded.working_at (cut : Cut (p.marked tables limits) d.state.pc f h) :
    ∃ cell base, Working M p (p.marked tables limits) p.main (s.regs .rsp).toNat d f h cell base := by
  have marked : Marked (p.marked tables limits) d.state.pc := ⟨f, h, cut⟩
  obtain ⟨j, -, c, ⟨_, _, _, _, working⟩, rest⟩ :=
    loaded.started stands data n (Nat.le_refl n) d run marked
  obtain ⟨g, k, cell, base, working⟩ := working.run loaded rest marked
  obtain ⟨rfl, rfl⟩ := cut.unique working.cut
  exact ⟨cell, base, working⟩

/-- **At every mark of an accepted program the data stack is as high as the mark says**, above the
base of the activation at work. -/
theorem Loaded.height (steady : p.Steady) (cut : Cut (p.marked tables limits) d.state.pc f h) :
    (d.state.regs .rsp).toNat + 8 * h = d.base (s.regs .rsp).toNat f := by
  obtain ⟨text, ok⟩ := loaded.spelled
  obtain ⟨cell, base, working⟩ := loaded.working_at stands data run cut
  rw [← working.base_eq (Program.formed_of_ofTokens ok).entry]
  exact working.level steady

/-- At the start of its body a function finds the data stack where it was entered. -/
theorem Loaded.rsp_entry (steady : p.Steady) {e : Nat} (here : Stands (p.marked tables limits) f e)
    (pc : d.state.pc = e + f.front.length) :
    (d.state.regs .rsp).toNat = d.entered (s.regs .rsp).toNat := by
  obtain ⟨rest, body, opens⟩ := here.body
  obtain ⟨k, cut, same⟩ := body.leads (.nodes _ (opens True))
  rw [← pc, same trivial] at cut
  exact Nat.add_right_cancel (loaded.height stands data run steady cut)

/-- The data stack at a node is as high as verification found it there. -/
theorem Loaded.height_visit (accepted : p.verify = .ok ()) (mem : f ∈ p.bodies) {e : Nat}
    (here : Stands (p.marked tables limits) f e) {v : Visit} (visit : v ∈ f.visits)
    (pc : d.state.pc = e + f.front.length + v.offset) :
    (d.state.regs .rsp).toNat + 8 * v.known.shape.size = d.base (s.regs .rsp).toNat f := by
  obtain ⟨text, ok⟩ := loaded.spelled
  have formed := Program.formed_of_ofTokens ok
  obtain ⟨first, stop, nested⟩ := formed.scoped f mem
  obtain ⟨last, alone⟩ := (Program.verify_eq_ok formed.wellScoped).1 accepted f mem
  obtain ⟨steady, visits⟩ := Func.counted nested alone
  obtain ⟨rest, body, opens⟩ := here.body
  obtain ⟨more, found, onward, -⟩ :=
    (visits v visit).placed body (opens True) fun _ => steady.body
  obtain ⟨k, cut, same⟩ := found.leads (.node v.node onward)
  rw [← pc, same trivial] at cut
  exact loaded.height stands data run (formed.steady accepted) cut

/-- An instruction of a body takes words from above the base only. -/
theorem Loaded.words_above (accepted : p.verify = .ok ()) {e j : Nat}
    (here : Stands (p.marked tables limits) f e) (inside : j < extentOf f.body)
    (pc : d.state.pc = e + f.front.length + j) {i : Instr} (fetch : M.code[d.state.pc]? = some i)
    {w : Nat} (lt : w < i.needs) :
    (d.state.regs .rsp).toNat + 8 * (w + 1) ≤ d.base (s.regs .rsp).toNat f := by
  obtain ⟨text, ok⟩ := loaded.spelled
  have steady := (Program.formed_of_ofTokens ok).steady accepted
  obtain ⟨rest, body, -⟩ := here.body
  have more : j < (itemsOf (markedOf f f.body f.contract.takes)).length := by simpa using inside
  obtain ⟨⟨k, m⟩, item⟩ : ∃ item, (itemsOf (markedOf f f.body f.contract.takes))[j]? = some item :=
    ⟨_, List.getElem?_eq_getElem more⟩
  have found := body.left.at more
  rw [item, ← pc] at found
  have belongs := belongs f f.body f.contract.takes _ (List.mem_of_getElem? item)
  obtain rfl : k = i := Option.some.inj ((Image.fetch loaded.marked found).symm.trans fetch)
  match m, belongs with
  | none, belongs =>
    have none : k.needs = 0 := belongs
    omega
  | some (g, h), belongs =>
    obtain rfl : g = f := belongs
    have height := loaded.height stands data run steady ⟨k, found⟩
    have enough := loaded.needs_le steady found
    omega

/-- Behind the main code the data stack is where it was at the start. -/
theorem Loaded.rsp_exit (accepted : p.verify = .ok ())
    (pc : d.state.pc = s.pc + p.main.front.length + extentOf p.main.body) :
    d.state.regs .rsp = s.regs .rsp := by
  obtain ⟨text, ok⟩ := loaded.spelled
  have formed := Program.formed_of_ofTokens ok
  have steady := formed.steady accepted
  have main : p.main ∈ p.bodies := List.mem_append_right _ (List.mem_singleton_self _)
  have ending := stands.ending
  rw [Func.ending, Func.isMain_main formed, if_pos rfl, ← pc] at ending
  have cut : Cut (p.marked tables limits) d.state.pc p.main p.main.after := ⟨_, ending.first⟩
  obtain ⟨cell, base, working⟩ := loaded.working_at stands data run cut
  have height := loaded.height stands data run steady cut
  have empty : p.main.after = 0 := by
    rw [(steady _ main).after, formed.entry]
    rfl
  rw [empty, Config.base, Config.entered, working.calls_eq_nil loaded, formed.entry] at height
  exact BitVec.eq_of_toNat_eq height

end Run

/-- **The data stack is as high as verification says.** In a text that is accepted, take any run from
the start: whatever memory and the kernel answer, however often loops go round and calls nest.
Verification visits every node of every body, and where control stands in front of one, the words from
`rsp` up to the base of the activation at work are as many as on the stack with which it was visited.
The base is that of the inputs: at the start of a body `rsp` is where the activation was entered. No
instruction of a body takes a word from beyond the base, and where the main code exits the data stack
is as it was at the start. -/
theorem Program.stack_heights {text file : String}
    (ok : check limits text file = .ok (p, tables)) (lines : M.lines = p.lines tables limits)
    (fits : M.layout.Fits limits M.code.length) (start : position? "_start" M.lines = some s.pc)
    (data : M.layout.dataStack ≤ (s.regs .rsp).toNat) (run : M.Runs n ⟨s, []⟩ d) :
    (∀ f ∈ p.bodies, ∀ e, position? f.label M.lines = some e →
      (d.state.pc = e + f.front.length →
        (d.state.regs .rsp).toNat = d.entered (s.regs .rsp).toNat)
      ∧ (∀ m h k, Occurs m h f.body f.contract.takes k →
        ∃ v ∈ f.visits, v.node = m ∧ v.offset = k)
      ∧ (∀ v ∈ f.visits, d.state.pc = e + f.front.length + v.offset →
        (d.state.regs .rsp).toNat + 8 * v.known.shape.size = d.base (s.regs .rsp).toNat f)
      ∧ ∀ j < extentOf f.body, d.state.pc = e + f.front.length + j →
        ∀ i, M.code[d.state.pc]? = some i → ∀ w < i.needs,
          (d.state.regs .rsp).toNat + 8 * (w + 1) ≤ d.base (s.regs .rsp).toNat f)
    ∧ (d.state.pc = s.pc + p.main.front.length + extentOf p.main.body →
        d.state.regs .rsp = s.regs .rsp) := by
  obtain ⟨spelled, accepted⟩ := check_eq_ok.1 ok
  obtain ⟨scanned, -, spelled⟩ := Program.ofText_eq_ok spelled
  have formed := Program.formed_of_ofTokens spelled
  have loaded : Loaded M p tables limits := ⟨⟨scanned, spelled⟩, lines, fits⟩
  have stands_at : ∀ f ∈ p.bodies, ∀ e, position? f.label M.lines = some e →
      Stands (p.marked tables limits) f e := by
    intro f mem e here
    obtain ⟨e', stands⟩ := loaded.stands mem
    rw [loaded.marked, stands.label] at here
    cases here
    exact stands
  have main : p.main ∈ p.bodies := List.mem_append_right _ (List.mem_singleton_self _)
  have stands : Stands (p.marked tables limits) p.main s.pc := by
    refine stands_at p.main main s.pc ?_
    rw [formed.start]
    exact start
  refine ⟨fun f mem e here => ⟨fun pc => ?entry, fun m h k occurs => ?visited,
    fun v visit pc => ?node, ?instruction⟩, fun pc => ?exit⟩
  case entry =>
    exact loaded.rsp_entry stands data run (formed.steady accepted) (stands_at f mem e here) pc
  case visited =>
    obtain ⟨last, alone⟩ := (Program.verify_eq_ok formed.wellScoped).1 accepted f mem
    exact occurs.visited_alone alone
  case node =>
    exact loaded.height_visit stands data run accepted mem (stands_at f mem e here) visit pc
  case instruction =>
    intro j inside pc i fetch w lt
    exact loaded.words_above stands data run accepted (stands_at f mem e here) inside pc fetch lt
  case exit => exact loaded.rsp_exit stands data run accepted pc

end Program

/-- `keepOnce` at its start. -/
def beforeMain : State where
  regs r :=
    match r with
    | .rsp => 200000
    | _ => 0
  flags := none
  mem _ := 0
  pc := 42

theorem runs_beforeMain :
    ∃ t, keepImage.Runs 4 ⟨beforeMain, []⟩ ⟨t, []⟩ ∧ t.pc = 46 ∧ t.regs .rsp = 199992 := by
  have pins : keepImage.code[42]? = some (.movAddress .r15 "pins") := by decide +kernel
  have stackEnd : keepImage.code[43]? = some (.movAddress .rax "ret_stack_end") := by
    decide +kernel
  have pointer : keepImage.code[44]? = some (.mov returnPointer (.reg .rax)) := by decide +kernel
  have push : keepImage.code[45]? = some (.push (.imm 5)) := by decide +kernel
  have on : ∀ {t : State}, t.regs .rsp = 200000 ∨ t.regs .rsp = 199992 →
      t.OnStack keepImage.layout := by
    rintro t (rsp | rsp) <;> exact .inl (by rw [rsp]; decide)
  exact ⟨_, .head (.of_effect pins rfl (on (.inl rfl)) rfl)
    (.head (.of_effect stackEnd rfl (on (.inl rfl)) rfl)
      (.head (.of_effect pointer rfl (on (.inl rfl)) rfl)
        (.head (.of_effect push rfl (on (.inr rfl)) rfl) .refl))), rfl, rfl⟩

/-- What verification knows in front of the call of `keep`. -/
def visitKeep : Visit where
  node := .call keep.call ⟨1, 37, "t"⟩
  known := ⟨⟨[⟨.number, ⟨1, 35, "t"⟩⟩]⟩, .empty⟩
  offset := 1

/-- In front of the call of `keep` one word is on the data stack. -/
theorem stack_heights_keepOnce :
    ∃ t, keepImage.Runs 4 ⟨beforeMain, []⟩ ⟨t, []⟩ ∧ visitKeep ∈ keepOnce.main.visits
      ∧ t.pc = 45 + visitKeep.offset
      ∧ (t.regs .rsp).toNat + 8 * visitKeep.known.shape.size = (beforeMain.regs .rsp).toNat := by
  obtain ⟨t, run, pc, -⟩ := runs_beforeMain
  have ok : check {} ": keep ( x:Number -- Number ) x ; 5 keep print" "t" = .ok (keepOnce, .empty) :=
    check_eq_ok.2 ⟨ofText_keepOnce, rfl⟩
  have visited : visitKeep ∈ keepOnce.main.visits := .tail _ (.head _)
  have start : position? "_start" keepImage.lines = some beforeMain.pc := by decide +kernel
  obtain ⟨heights, -⟩ := Program.stack_heights ok (M := keepImage) rfl
    (Layout.fits_usual (by decide +kernel)) start (by decide) run
  obtain ⟨-, -, nodes, -⟩ := heights keepOnce.main (List.mem_append_right _ (List.mem_singleton_self _))
    beforeMain.pc start
  exact ⟨t, run, visited, pc, nodes visitKeep visited pc⟩

end PinnedStack
