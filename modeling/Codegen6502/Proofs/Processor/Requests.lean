import Codegen6502.Processor.Run
import Codegen6502.Proofs.Processor.Polling
import Mathlib.Data.List.Induction

/-!
# Requests for interrupts

What becomes of the requests while a machine is worked on from outside: requests are raised,
subroutines called, single instructions run, and memory and registers written.  The history of such
a session is the list of what happened to the requests (`history`), and `waiting` plays it back: a
request that is raised goes to the end, one that is taken goes away.

The machine does not keep the requests in that order.  Its own list is the sorted one (`queue`), and
the request at its head is the first of those that are due first (`queue_head`).

* `Tally`: the machine and the history agree;
* `tally_poll`, `tally_loop`, `tally_session`: before an instruction, through a call, and through a
  session;
* `resumes_taking`: what taking an interrupt leaves for the instruction RTI;
* `requests_delivered`: every request is taken once or still waits, and none is taken out of turn.
-/

namespace Codegen6502.Proofs.Processor.Requests

open Memory Fetching Stack Polling

variable {m : Machine} {request : Interrupt} {requests rest : List Interrupt}

/-! ### The order of the requests -/

/-- The requests in the order in which the machine keeps them. -/
def queue (requests : List Interrupt) : List Interrupt :=
  requests.foldl (fun sorted request => Machine.insertRequest request sorted) []

theorem queue_concat (requests : List Interrupt) (request : Interrupt) :
    queue (requests ++ [request]) = Machine.insertRequest request (queue requests) := by
  simp [queue]

theorem perm_insertRequest (request : Interrupt) (sorted : List Interrupt) :
    (Machine.insertRequest request sorted).Perm (request :: sorted) := by
  induction sorted with
  | nil => exact .refl _
  | cons first rest ih =>
    unfold Machine.insertRequest
    split
    · exact (ih.cons first).trans (.swap ..)
    · exact .refl _

/-- The machine keeps all the requests. -/
theorem perm_queue (requests : List Interrupt) : (queue requests).Perm requests := by
  induction requests using List.reverseRecOn with
  | nil => exact .refl _
  | append_singleton requests request ih =>
    rw [queue_concat]
    exact ((perm_insertRequest ..).trans (ih.cons _)).trans (List.perm_append_singleton ..).symm

/-- A request is the first one of those that are due first. -/
def First (request : Interrupt) (earlier later : List Interrupt) : Prop :=
  (∀ r ∈ earlier, request.atStep < r.atStep) ∧ ∀ r ∈ later, request.atStep ≤ r.atStep

/-- **The head of the queue** is the first of the requests that are due first, and behind it is the
queue of all the others. -/
theorem queue_head (h : queue requests = request :: rest) :
    ∃ earlier later, requests = earlier ++ request :: later ∧ First request earlier later ∧
      rest = queue (earlier ++ later) := by
  induction requests using List.reverseRecOn generalizing request rest with
  | nil => cases h
  | append_singleton requests last ih =>
    rw [queue_concat] at h
    cases hqueue : queue requests with
    | nil =>
      rw [hqueue] at h
      obtain ⟨rfl, rfl⟩ := List.cons.inj h
      have hnone : requests = [] := List.perm_nil.mp (hqueue ▸ (perm_queue requests).symm)
      exact ⟨[], [], by rw [hnone], ⟨nofun, nofun⟩, rfl⟩
    | cons first others =>
      obtain ⟨earlier, later, heq, ⟨hearlier, hlater⟩, hothers⟩ := ih hqueue
      rw [hqueue, Machine.insertRequest] at h
      split at h
      · rename_i hle
        obtain ⟨rfl, rfl⟩ := List.cons.inj h
        refine ⟨earlier, later ++ [last], by rw [heq, List.append_assoc]; rfl, ⟨hearlier, ?_⟩, ?_⟩
        · simpa [or_imp, forall_and] using ⟨hlater, hle⟩
        · rw [← List.append_assoc, queue_concat, hothers]
      · rename_i hlt
        obtain ⟨rfl, rfl⟩ := List.cons.inj h
        refine ⟨requests, [], rfl, ⟨fun r hr => ?_, nofun⟩, by rw [List.append_nil, hqueue]⟩
        rw [heq, List.mem_append, List.mem_cons] at hr
        rcases hr with hr | rfl | hr
        · exact (Nat.lt_of_not_le hlt).trans (hearlier r hr)
        · exact Nat.lt_of_not_le hlt
        · exact (Nat.lt_of_not_le hlt).trans_le (hlater r hr)

/-! ### A session and its history -/

/-- What is done to a machine from outside. -/
inductive Operation where
  | raise (request : Interrupt)
  | call (address : UInt16)
  | step
  | poke (address : UInt16) (value : UInt8)
  | setRegisters (registers : Registers)

/-- The machine that an operation leaves, whether or not a fault ended it. -/
def Operation.apply (m : Machine) : Operation → Machine
  | .raise request => m.raiseInterrupt request
  | .call address => (m.call address).2
  | .step => m.step.2
  | .poke address value => m.poke address value
  | .setRegisters registers => m.mapRegs fun _ => registers

/-- The request that an operation raises. -/
def Operation.raised? : Operation → Option Interrupt
  | .raise request => some request
  | _ => none

def Operation.isCall : Operation → Bool
  | .call _ => true
  | _ => false

/-- The machine after some operations. -/
def session (m : Machine) (operations : List Operation) : Machine :=
  operations.foldl Operation.apply m

/-- An interrupt that was taken: the request, and the machine right before. -/
structure Taking where
  request : Interrupt
  before : Machine

/-- What happens to requests. -/
inductive Event where
  | raised (request : Interrupt)
  | taken (taking : Taking)

def Event.taking? : Event → Option Taking
  | .taken taking => some taking
  | _ => none

/-- The takings of a history, in their order. -/
def takings (events : List Event) : List Taking := events.filterMap Event.taking?

/-- The taking before an instruction, if the number of those taken grows then. -/
def taking? (m : Machine) : Option Taking :=
  if m.pollInterrupt.interruptsTaken = m.interruptsTaken then none
  else m.pending.head?.map fun request => { request, before := m }

/-- The machine before each of the instructions that a call runs. -/
def turns : ℕ → Machine → List Machine
  | 0, _ => []
  | remaining + 1, m =>
    if m.regs.pc = Machine.returnSentinel then []
    else
      m :: match m.pollInterrupt.step with
        | (some _, _) => []
        | (none, m) => turns remaining m

/-- The machine that a call begins with. -/
def entered (m : Machine) (address : UInt16) : Machine :=
  let m := m.pushWord (Machine.returnSentinel - 1)
  { m with minSp := m.regs.sp, regs := { m.regs with pc := address } }

/-- What an operation does to requests. -/
def Operation.events (m : Machine) : Operation → List Event
  | .raise request => [.raised request]
  | .call address =>
    let m := entered m address
    (turns (m.stepLimit - m.steps) m).filterMap fun m => (taking? m).map .taken
  | _ => []

/-- What some operations do to requests. -/
def history : Machine → List Operation → List Event
  | _, [] => []
  | m, operation :: rest => operation.events m ++ history (operation.apply m) rest

/-- One more event. -/
def Event.play (requests : List Interrupt) : Event → List Interrupt
  | .raised request => requests ++ [request]
  | .taken taking => requests.erase taking.request

/-- The requests that wait after a history, in the order in which they were raised. -/
def waiting (events : List Event) : List Interrupt := events.foldl Event.play []

/-! ### Each taking -/

/-- **A taking in its turn**: after the events before it, the machine has the requests that wait,
the one that is taken is due, interrupts are not masked, and of the requests that wait it is the
first of those that are due first. -/
structure InTurn (events : List Event) (taking : Taking) : Prop where
  clear : taking.before.regs.flag .i = false
  due : taking.request.atStep ≤ taking.before.steps
  held : taking.before.pending.Perm (waiting events)
  first : ∃ earlier later, waiting events = earlier ++ taking.request :: later ∧
    First taking.request earlier later

/-- A machine about to run RTI with three bytes of the stack as another machine has them. -/
structure AboutToReturn (m : Machine) (entry : Machine) : Prop where
  code : Opcode.rti.encode .implied = some (m.bus.read m.regs.pc)
  balanced : m.regs.sp = entry.regs.sp
  intact : ∀ i ∈ [1, 2, 3], m.bus.read (Machine.stackAddress (entry.regs.sp + i)) =
    entry.bus.read (Machine.stackAddress (entry.regs.sp + i))

/-- **The interrupted code goes on** where it was: the handler is entered with interrupts masked,
and RTI restores the program counter, the stack pointer and every flag that is one. -/
structure Resumes (taking : Taking) : Prop where
  handler : taking.before.pollInterrupt.regs.pc = taking.request.handler
  masked : taking.before.pollInterrupt.regs.flag .i = true
  returns : ∀ m, AboutToReturn m taking.before.pollInterrupt →
    m.step.1 = none ∧ m.step.2.regs.pc = taking.before.regs.pc ∧
      m.step.2.regs.sp = taking.before.regs.sp ∧
      ∀ f, IsReal f → m.step.2.regs.flag f = taking.before.regs.flag f

theorem pollInterrupt_cons (hpending : m.pending = request :: rest)
    (hdue : request.atStep ≤ m.steps) (hclear : m.regs.flag .i = false) :
    m.pollInterrupt = { (m.pushWord m.regs.pc).push (Registers.pulledStatus m.regs.p) with
      pending := rest
      regs := { m.regs.setFlag .i true with sp := m.regs.sp - 1 - 1 - 1, pc := request.handler }
      interruptsTaken := m.interruptsTaken + 1 } := by
  unfold Machine.pollInterrupt
  rw [hpending]
  simp only [gt_iff_lt, Nat.not_lt.mpr hdue, hclear, decide_false, Bool.or_false,
    Bool.false_eq_true, if_false]
  rfl

theorem taking_due (hpending : m.pending = request :: rest) (hdue : request.atStep ≤ m.steps)
    (hclear : m.regs.flag .i = false) : taking? m = some { request, before := m } := by
  have hmore : m.interruptsTaken + 1 ≠ m.interruptsTaken := Nat.succ_ne_self _
  unfold taking?
  rw [pollInterrupt_cons hpending hdue hclear, if_neg hmore, hpending]
  rfl

/-- **Nothing is taken, or the head of the queue is**, when it is due and interrupts are not
masked. -/
theorem poll_cases (m : Machine) :
    (taking? m = none ∧ m.pollInterrupt = m) ∨
      ∃ request rest, m.pending = request :: rest ∧ request.atStep ≤ m.steps ∧
        m.regs.flag .i = false ∧ taking? m = some { request, before := m } := by
  have hnone : m.pollInterrupt = m → taking? m = none := fun h => by
    unfold taking?
    rw [h, if_pos rfl]
  cases hpending : m.pending with
  | nil =>
    have hkept : m.pollInterrupt = m := by
      unfold Machine.pollInterrupt
      rw [hpending]
    exact Or.inl ⟨hnone hkept, hkept⟩
  | cons request rest =>
    by_cases h : request.atStep ≤ m.steps ∧ m.regs.flag .i = false
    · exact Or.inr ⟨request, rest, rfl, h.1, h.2, taking_due hpending h.1 h.2⟩
    · have hkept : m.pollInterrupt = m := by
        unfold Machine.pollInterrupt
        rw [hpending]
        have hcond : (decide (request.atStep > m.steps) || m.regs.flag .i) = true := by
          simpa [Nat.not_le, imp_iff_not_or] using h
        simp only [hcond, if_true]
      exact Or.inl ⟨hnone hkept, hkept⟩

theorem before_taking {taking : Taking} (h : taking? m = some taking) : taking.before = m := by
  unfold taking? at h
  split at h
  · cases h
  · obtain ⟨request, -, rfl⟩ := Option.map_eq_some_iff.mp h
    rfl

/-- An interrupt that is taken pushes three bytes. -/
theorem read_poll_stack (hstack : ∀ sp, Plain m.bus (Machine.stackAddress sp))
    (hpending : m.pending = request :: rest) (hdue : request.atStep ≤ m.steps)
    (hclear : m.regs.flag .i = false) :
    m.pollInterrupt.bus.read (Machine.stackAddress (m.regs.sp - 1 - 1)) =
        Registers.pulledStatus m.regs.p ∧
      m.pollInterrupt.bus.read (Machine.stackAddress (m.regs.sp - 1)) = lowByte m.regs.pc ∧
      m.pollInterrupt.bus.read (Machine.stackAddress m.regs.sp) = highByte m.regs.pc := by
  have hbus : m.pollInterrupt.bus =
      ((m.bus.write (Machine.stackAddress m.regs.sp) (highByte m.regs.pc)).write
        (Machine.stackAddress (m.regs.sp - 1)) (lowByte m.regs.pc)).write
        (Machine.stackAddress (m.regs.sp - 1 - 1)) (Registers.pulledStatus m.regs.p) := by
    rw [pollInterrupt_cons hpending hdue hclear]
    rfl
  have hone : ∀ sp : UInt8, sp - 1 ≠ sp := by grind
  have htwo : ∀ sp : UInt8, sp - 1 - 1 ≠ sp := by grind
  rw [hbus]
  simp [read_write, plain_write, hstack, stackAddress_inj, hone, htwo]

/-- RTI pulls the status and the program counter. -/
theorem step_rti (hcode : Opcode.rti.encode .implied = some (m.bus.read m.regs.pc)) :
    m.step.1 = none ∧
      m.step.2.regs = { m.regs with
        p := Registers.pulledStatus (m.bus.read (Machine.stackAddress (m.regs.sp + 1)))
        sp := m.regs.sp + 1 + 1 + 1
        pc := word (m.bus.read (Machine.stackAddress (m.regs.sp + 1 + 1)))
          (m.bus.read (Machine.stackAddress (m.regs.sp + 1 + 1 + 1))) } := by
  have hdecode := decodeTable_get hcode
  unfold Machine.step
  simp only [Machine.fetch, hdecode]
  exact ⟨trivial, rfl⟩

/-- A byte that is pulled into the status register decides every flag that is one. -/
theorem flag_pulled (r r' : Registers) (byte : UInt8) (h : r.p = Registers.pulledStatus byte)
    (h' : r'.p = byte) {f : Flag} (hf : IsReal f) : r.flag f = r'.flag f := by
  rw [flag_eq, flag_eq, h, h']
  unfold Registers.pulledStatus
  simp only [UInt8.toBitVec_or, UInt8.toBitVec_and, UInt8.toBitVec_not, mask_toBitVec,
    BitVec.getLsbD_or, BitVec.getLsbD_and, BitVec.getLsbD_not, BitVec.getLsbD_twoPow]
  cases f
  case brk => exact absurd rfl hf.1
  case unused => exact absurd rfl hf.2
  all_goals simp [bit]

/-- **What taking an interrupt leaves on the stack** is what RTI needs. -/
theorem resumes_taking {taking : Taking}
    (hstack : ∀ sp, Plain taking.before.bus (Machine.stackAddress sp))
    (htaking : taking? taking.before = some taking) : Resumes taking := by
  obtain ⟨request, m⟩ := taking
  rcases poll_cases m with ⟨hnone, -⟩ | ⟨request', rest, hpending, hdue, hclear, hsome⟩
  · rw [hnone] at htaking
    cases htaking
  rw [hsome] at htaking
  cases htaking
  have hregs := congrArg Machine.regs (pollInterrupt_cons hpending hdue hclear)
  have hentry : m.pollInterrupt.regs.sp = m.regs.sp - 1 - 1 - 1 := congrArg Registers.sp hregs
  obtain ⟨hstatus, hlow, hhigh⟩ := read_poll_stack hstack hpending hdue hclear
  refine ⟨congrArg Registers.pc hregs, ?_, fun handler hreturn => ?_⟩
  · change m.pollInterrupt.regs.flag .i = true
    rw [hregs]
    exact (flag_setFlag m.regs .i .i true).trans (if_pos rfl)
  · have hread : ∀ i ∈ [1, 2, 3], ∀ sp, m.regs.sp - 1 - 1 - 1 + i = sp →
        handler.bus.read (Machine.stackAddress sp) =
          m.pollInterrupt.bus.read (Machine.stackAddress sp) := by
      rintro i hi sp rfl
      have hintact := hreturn.intact i hi
      rwa [hentry] at hintact
    obtain ⟨hnone, hresult⟩ := step_rti hreturn.code
    rw [hreturn.balanced, hentry, UInt8.sub_add_cancel, UInt8.sub_add_cancel, UInt8.sub_add_cancel,
      hread 1 (by decide) _ (by grind), hread 2 (by decide) _ (by grind),
      hread 3 (by decide) _ (by grind), hstatus, hlow, hhigh, word_bytes] at hresult
    have hpc := congrArg Registers.pc hresult
    have hsp := congrArg Registers.sp hresult
    refine ⟨hnone, hpc, hsp, fun f hf => ?_⟩
    have hpulled : ({ m.regs with p := Registers.pulledStatus m.regs.p } : Registers).flag f =
        m.regs.flag f := flag_pulled _ _ _ rfl rfl hf
    rw [← hpulled]
    exact flag_pulled _ _ _ (congrArg Registers.p hresult) rfl hf

/-! ### The machine and the history agree -/

/-- The requests that a history raises. -/
def raised (events : List Event) : List Interrupt := events.filterMap fun
  | .raised request => some request
  | .taken _ => none

/-- **The machine and the history agree**: the machine holds the requests that wait and counts those
that were taken, no request is lost, and every taking was in its turn. -/
structure Tally (events : List Event) (m : Machine) : Prop where
  held : m.pending = queue (waiting events)
  counted : m.interruptsTaken = (takings events).length
  complete : (raised events).Perm ((takings events).map (·.request) ++ waiting events)
  inTurn : ∀ front taking back, events = front ++ .taken taking :: back →
    InTurn front taking ∧ taking? taking.before = some taking

variable {events : List Event} {event : Event} {m' : Machine}

theorem waiting_concat : waiting (events ++ [event]) = event.play (waiting events) := by
  simp [waiting]

/-- What the machine keeps about requests. -/
def ledger (m : Machine) : List Interrupt × ℕ := (m.pending, m.interruptsTaken)

theorem Tally.congr (h : Tally events m) (hledger : ledger m' = ledger m) : Tally events m' :=
  ⟨(congrArg Prod.fst hledger).trans h.held, (congrArg Prod.snd hledger).trans h.counted,
    h.complete, h.inTurn⟩

/-- What holds of every taking in a history and of one more event. -/
theorem inTurn_concat {P : List Event → Taking → Prop}
    (h : ∀ front taking back, events = front ++ .taken taking :: back → P front taking)
    (hlast : ∀ taking, event = .taken taking → P events taking) (front : List Event)
    (taking : Taking) (back : List Event)
    (heq : events ++ [event] = front ++ .taken taking :: back) : P front taking := by
  cases back using List.reverseRecOn with
  | nil =>
    obtain ⟨rfl, hevent⟩ := List.append_inj' heq rfl
    exact hlast taking (List.head_eq_of_cons_eq hevent)
  | append_singleton back last =>
    rw [← List.cons_append, ← List.append_assoc] at heq
    exact h front taking back (List.append_inj' heq rfl).1

/-- A request that is raised waits. -/
theorem tally_raise (h : Tally events m) (request : Interrupt) :
    Tally (events ++ [Event.raised request]) (m.raiseInterrupt request) := by
  have hraised : raised (events ++ [Event.raised request]) = raised events ++ [request] := by
    simp [raised]
  have htakings : takings (events ++ [Event.raised request]) = takings events := by
    simp [takings, Event.taking?]
  refine ⟨?_, ?_, ?_, inTurn_concat h.inTurn nofun⟩
  · rw [waiting_concat, Event.play, queue_concat, ← h.held]
    rfl
  · rw [htakings]
    exact h.counted
  · rw [hraised, htakings, waiting_concat, Event.play, ← List.append_assoc]
    exact h.complete.append_right _

/-- The first of those that are due first is the first one that is equal to it. -/
theorem erase_first {earlier later : List Interrupt} (h : First request earlier later) :
    (earlier ++ request :: later).erase request = earlier ++ later := by
  have hnot : request ∉ earlier := fun hmem => Nat.lt_irrefl _ (h.1 request hmem)
  rw [List.erase_append_right _ hnot, List.erase_cons_head]

/-- **Before an instruction** the machine takes what is due, in its turn. -/
theorem tally_poll (h : Tally events m) :
    Tally (events ++ ((taking? m).map .taken).toList) m.pollInterrupt := by
  rcases poll_cases m with ⟨hnone, hkept⟩ | ⟨request, rest, hpending, hdue, hclear, hsome⟩
  · rw [hnone, hkept]
    simpa using h
  have hpoll := pollInterrupt_cons hpending hdue hclear
  have hheld := h.held
  rw [hpending] at hheld
  obtain ⟨earlier, later, hwaiting, hfirst, hrest⟩ := queue_head hheld.symm
  have herase : (waiting events).erase request = earlier ++ later := by
    rw [hwaiting, erase_first hfirst]
  let taking : Taking := { request, before := m }
  have htakings : takings (events ++ [Event.taken taking]) = takings events ++ [taking] := by
    simp [takings, Event.taking?]
  have hraised : raised (events ++ [Event.taken taking]) = raised events := by
    simp [raised]
  rw [hsome, Option.map_some, Option.toList_some]
  refine ⟨?_, ?_, ?_, inTurn_concat h.inTurn ?_⟩
  · rw [waiting_concat, hpoll, Event.play, herase]
    exact hrest
  · rw [htakings, hpoll, List.length_append, ← h.counted]
    rfl
  · rw [hraised, htakings, waiting_concat, Event.play, herase]
    refine h.complete.trans ?_
    rw [hwaiting, List.map_append, List.append_assoc]
    exact List.perm_middle.append_left _
  · rintro _ ⟨⟩
    refine ⟨⟨hclear, hdue, ?_, earlier, later, hwaiting, hfirst⟩, hsome⟩
    rw [h.held]
    exact perm_queue _

/-! ### Instructions take none -/

theorem ledger_execute (m : Machine) (op : Opcode) (t : EffectiveOperand) :
    ledger (m.execute op t) = ledger m := by
  cases op <;> simp only [Machine.execute, Machine.mapRegs]
  case bcc | bcs | beq | bne | bmi | bpl | bvc | bvs =>
    unfold Machine.branchIf
    split <;> rfl
  case sta | stx | sty | asl | lsr | rol | ror | inc | dec => cases t <;> rfl
  all_goals rfl

/-- **An instruction** leaves the requests alone. -/
theorem ledger_step (m : Machine) : ledger m.step.2 = ledger m := by
  unfold Machine.step
  simp only
  split
  · rfl
  · rename_i op mode hdecode
    have hready : ledger (ready m mode) = ledger m := by cases mode <;> rfl
    exact (ledger_execute (ready m mode) op _).trans hready

theorem tally_step (h : Tally events m) : Tally events m.step.2 :=
  h.congr (ledger_step m)

/-- An instruction that is a fault, too, moves neither the window nor the bank register. -/
theorem kept_stepped (m : Machine) : Kept anywhere m.bus m.step.2.bus := by
  rcases hstep : m.step with ⟨fault, m'⟩
  cases fault with
  | none => exact kept_step hstep
  | some fault =>
    unfold Machine.step at hstep
    simp only at hstep
    split at hstep
    · cases hstep
      exact .refl _
    · cases hstep

/-! ### Calls -/

section Calls

-- A whole instruction is not to be computed where the loop only asks how it ended.
attribute [local irreducible] Machine.step

theorem runUntilReturn_succ (n : ℕ) (m : Machine) :
    Machine.runUntilReturn (n + 1) m =
      if m.regs.pc = Machine.returnSentinel then (none, m)
      else
        match m.pollInterrupt.step with
        | (some fault, m) => (some fault, m)
        | (none, m) => Machine.runUntilReturn n m := rfl

theorem turns_zero (m : Machine) : turns 0 m = [] := rfl

theorem turns_succ (n : ℕ) (m : Machine) :
    turns (n + 1) m =
      if m.regs.pc = Machine.returnSentinel then []
      else
        m :: match m.pollInterrupt.step with
          | (some _, _) => []
          | (none, m) => turns n m := rfl

/-- A call that has a single instruction left. -/
theorem turns_one (h : m.regs.pc ≠ Machine.returnSentinel) : turns 1 m = [m] := by
  rw [turns_succ, if_neg h]
  split <;> rfl

theorem events_call_one {taking : Taking} {address : UInt16} (hlimit : m.stepLimit - m.steps = 1)
    (haddress : address ≠ Machine.returnSentinel) (htaking : taking? (entered m address) = some taking) :
    Operation.events m (.call address) = [.taken taking] := by
  have hevents : Operation.events m (.call address) =
      (turns (m.stepLimit - m.steps) (entered m address)).filterMap
        fun m => (taking? m).map .taken := rfl
  rw [hevents, hlimit, turns_one haddress, List.filterMap_cons_some (by rw [htaking]; rfl)]
  rfl

theorem runUntilReturn_zero (m : Machine) : (Machine.runUntilReturn 0 m).2 = m := by
  change (if _ then _ else _ : Option MachineFault × Machine).2 = m
  split <;> rfl

/-- **Through the instructions of a call** every taking is in its turn. -/
theorem tally_loop (n : ℕ) : ∀ {events : List Event} {m : Machine}, Tally events m →
    Tally (events ++ (turns n m).filterMap fun m => (taking? m).map .taken)
      (Machine.runUntilReturn n m).2 := by
  induction n with
  | zero =>
    intro events m h
    rw [runUntilReturn_zero, turns_zero, List.filterMap_nil, List.append_nil]
    exact h
  | succ n ih =>
    intro events m h
    rw [turns_succ, runUntilReturn_succ]
    by_cases hreturn : m.regs.pc = Machine.returnSentinel
    · rw [if_pos hreturn, if_pos hreturn, List.filterMap_nil, List.append_nil]
      exact h
    · rw [if_neg hreturn, if_neg hreturn]
      have hcons : ∀ rest : List Machine,
          (m :: rest).filterMap (fun m => (taking? m).map Event.taken) =
            ((taking? m).map .taken).toList ++
              rest.filterMap fun m => (taking? m).map .taken := by
        intro rest
        cases htaking : taking? m <;> simp [htaking]
      have hstep := tally_step (tally_poll h)
      rcases hnext : m.pollInterrupt.step with ⟨fault, m'⟩
      rw [hnext] at hstep
      cases fault with
      | none =>
        rw [hcons, ← List.append_assoc]
        exact ih hstep
      | some fault =>
        rw [hcons, List.filterMap_nil, List.append_nil]
        exact hstep

/-- **Only a call** takes interrupts. -/
theorem taken_operation (m : Machine) {operation : Operation} (hcall : operation.isCall = false) :
    (operation.apply m).interruptsTaken = m.interruptsTaken := by
  cases operation with
  | call address => cases hcall
  | step => exact congrArg Prod.snd (ledger_step m)
  | raise | poke | setRegisters => rfl

theorem tally_operation (h : Tally events m) (operation : Operation) :
    Tally (events ++ operation.events m) (operation.apply m) := by
  cases operation with
  | raise request => exact tally_raise h request
  | call address =>
    have hentered : ledger (entered m address) = ledger m := rfl
    exact tally_loop _ (h.congr hentered)
  | step =>
    change Tally (events ++ []) m.step.2
    rw [List.append_nil]
    exact tally_step h
  | poke | setRegisters =>
    change Tally (events ++ []) _
    rw [List.append_nil]
    exact h.congr rfl

/-- **Through a session** every taking is in its turn. -/
theorem tally_session (operations : List Operation) : ∀ {events : List Event} {m : Machine},
    Tally events m → Tally (events ++ history m operations) (session m operations) := by
  induction operations with
  | nil =>
    intro events m h
    rw [history, List.append_nil]
    exact h
  | cons operation operations ih =>
    intro events m h
    rw [history, ← List.append_assoc]
    exact ih (tally_operation h operation)

/-! ### The stack page stays where it is -/

theorem kept_turn (m : Machine) : Kept anywhere m.bus m.pollInterrupt.step.2.bus :=
  (kept_poll (fun _ => trivial) m).trans (kept_stepped m.pollInterrupt)

theorem kept_turns (n : ℕ) : ∀ {m q : Machine}, q ∈ turns n m → Kept anywhere m.bus q.bus := by
  induction n with
  | zero => exact nofun
  | succ n ih =>
    intro m q hq
    rw [turns_succ] at hq
    split at hq
    · cases hq
    rcases List.mem_cons.mp hq with rfl | hq
    · exact .refl _
    have hkept := kept_turn m
    rcases hnext : m.pollInterrupt.step with ⟨fault, m'⟩
    rw [hnext] at hkept hq
    cases fault with
    | none => exact hkept.trans (ih hq)
    | some fault => cases hq

theorem kept_loop (n : ℕ) : ∀ m : Machine,
    Kept anywhere m.bus (Machine.runUntilReturn n m).2.bus := by
  induction n with
  | zero =>
    intro m
    rw [runUntilReturn_zero]
    exact .refl _
  | succ n ih =>
    intro m
    rw [runUntilReturn_succ]
    split
    · exact .refl _
    have hkept := kept_turn m
    rcases hnext : m.pollInterrupt.step with ⟨fault, m'⟩
    rw [hnext] at hkept
    cases fault with
    | none => exact hkept.trans (ih m')
    | some fault => exact hkept

theorem kept_entered (m : Machine) (address : UInt16) :
    Kept anywhere m.bus (entered m address).bus :=
  ((Kept.refl _).write trivial _).write trivial _

theorem kept_operation (m : Machine) (operation : Operation) :
    Kept anywhere m.bus (operation.apply m).bus := by
  cases operation with
  | call address => exact (kept_entered m address).trans (kept_loop ..)
  | step => exact kept_stepped m
  | poke address value => exact kept_write m.bus trivial value
  | raise | setRegisters => exact .refl _

theorem kept_taking (operations : List Operation) : ∀ {m : Machine} {taking : Taking},
    .taken taking ∈ history m operations → Kept anywhere m.bus taking.before.bus := by
  induction operations with
  | nil => exact nofun
  | cons operation operations ih =>
    intro m taking htaking
    rcases List.mem_append.mp htaking with htaking | htaking
    · cases operation with
      | call address =>
        obtain ⟨q, hq, htaken⟩ := List.mem_filterMap.mp htaking
        obtain ⟨_, hsome, ⟨⟩⟩ := Option.map_eq_some_iff.mp htaken
        rw [before_taking hsome]
        exact (kept_entered m address).trans (kept_turns _ hq)
      | raise request => simp [Operation.events] at htaking
      | step | poke | setRegisters => cases htaking
    · exact (kept_operation m operation).trans (ih htaking)

end Calls

/-! ### Delivery -/

theorem raised_history (operations : List Operation) : ∀ m : Machine,
    raised (history m operations) = operations.filterMap Operation.raised? := by
  induction operations with
  | nil => exact fun _ => rfl
  | cons operation operations ih =>
    intro m
    have happend : raised (history m (operation :: operations)) =
        raised (operation.events m) ++ raised (history (operation.apply m) operations) := by
      simp [history, raised]
    rw [happend, ih]
    cases operation with
    | call address =>
      have hnone : raised (Operation.events m (.call address)) = [] := by
        unfold raised Operation.events
        refine List.filterMap_eq_nil_iff.mpr fun event hevent => ?_
        obtain ⟨q, -, hq⟩ := List.mem_filterMap.mp hevent
        obtain ⟨taking, -, rfl⟩ := Option.map_eq_some_iff.mp hq
        rfl
      rw [hnone]
      rfl
    | raise | step | poke | setRegisters => rfl

/-- **Requests are delivered once and in their turn.**  What was raised is what was taken and what
still waits; nothing but a call takes an interrupt; and whoever is interrupted can be returned
to. -/
theorem requests_delivered (hpending : m.pending = []) (htaken : m.interruptsTaken = 0)
    (operations : List Operation) :
    (operations.filterMap Operation.raised?).Perm
        ((takings (history m operations)).map (·.request) ++ (session m operations).pending) ∧
      (session m operations).interruptsTaken = (takings (history m operations)).length ∧
      (∀ front operation back, operations = front ++ operation :: back →
        operation.isCall = false →
        (session m (front ++ [operation])).interruptsTaken = (session m front).interruptsTaken) ∧
      ∀ front taking back, history m operations = front ++ .taken taking :: back →
        InTurn front taking ∧
          ((∀ sp, Plain m.bus (Machine.stackAddress sp)) → Resumes taking) := by
  have hstart : Tally [] m :=
    ⟨hpending, htaken, .refl _, fun front taking back h => by cases front <;> cases h⟩
  have htally : Tally (history m operations) (session m operations) := tally_session operations hstart
  refine ⟨?_, htally.counted, ?_, fun front taking back h => ?_⟩
  · rw [← raised_history operations m, htally.held]
    exact htally.complete.trans ((perm_queue _).symm.append_left _)
  · rintro front operation back - hcall
    have hlast : session m (front ++ [operation]) = operation.apply (session m front) := by
      simp [session]
    rw [hlast]
    exact taken_operation _ hcall
  · obtain ⟨hturn, htaking⟩ := htally.inTurn front taking back h
    refine ⟨hturn, fun hstack => resumes_taking (fun sp => ?_) htaking⟩
    have hmem : .taken taking ∈ history m operations := by simp [h]
    exact ((kept_taking operations hmem).plain _).mpr (hstack sp)

/-- A machine that may run a single instruction. -/
def brief : Machine := { Machine.create 0xA000 0x2000 0xD500 with stepLimit := 1 }

/-- Two requests that are due at once, one that is due later, and a call. -/
def threeRequests : List Operation :=
  [.raise ⟨0, 0x0300⟩, .raise ⟨7, 0x0500⟩, .raise ⟨0, 0x0400⟩, .call 0x0200]

/-- Of two requests that are due the one that was raised first is taken, and the code that it
interrupts goes on. -/
theorem earlier_request_delivered : ∃ front taking,
    history brief threeRequests = front ++ [.taken taking] ∧
      taking.request = ⟨0, 0x0300⟩ ∧ InTurn front taking ∧ Resumes taking ∧
      (session brief threeRequests).interruptsTaken = 1 := by
  let called := entered (session brief (threeRequests.take 3)) 0x0200
  have htaking : taking? called = some ⟨⟨0, 0x0300⟩, called⟩ :=
    taking_due rfl (Nat.le_refl 0) (by decide)
  have hcall := events_call_one (m := session brief (threeRequests.take 3)) rfl (by decide) htaking
  have hhistory : history brief threeRequests =
      [Event.raised ⟨0, 0x0300⟩, .raised ⟨7, 0x0500⟩, .raised ⟨0, 0x0400⟩] ++
        [.taken ⟨⟨0, 0x0300⟩, called⟩] := by
    rw [← hcall, ← List.append_nil (Operation.events ..)]
    rfl
  obtain ⟨-, hcount, -, hturn⟩ := requests_delivered (m := brief) rfl rfl threeRequests
  obtain ⟨hinTurn, hresumes⟩ := hturn _ _ [] hhistory
  refine ⟨_, _, hhistory, rfl, hinTurn, hresumes fun sp => ?_, ?_⟩
  · have hlow : (Machine.stackAddress sp).toNat < 0x200 := by
      rw [toNat_stackAddress]
      have := sp.toNat_lt
      omega
    refine ⟨?_, fun h => ?_⟩
    · have hbelow : ¬ (0xA000 : UInt16) ≤ Machine.stackAddress sp := by
        rw [UInt16.le_iff_toNat_le]
        simp only [UInt16.reduceToNat]
        omega
      exact Bool.and_eq_false_imp.mpr fun h => absurd (of_decide_eq_true h) hbelow
    · rw [h] at hlow
      exact absurd hlow (by decide)
  · rw [hcount, hhistory]
    rfl

end Codegen6502.Proofs.Processor.Requests
