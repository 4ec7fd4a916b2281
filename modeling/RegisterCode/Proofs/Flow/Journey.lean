import RegisterCode.Proofs.Flow.Landing
import RegisterCode.Proofs.Machine.Instructions

/-!
What the steps of flow graphs mean by themselves. A journey goes through the
listings of the functions step by step; its temporaries are set one by one and
have no place in a register file. A call passes the values of its window, the
temporaries written by the copies in front of it.
-/

namespace RegisterCode

/-- The temporaries that the steps in front of a call copy its `n` arguments to. -/
def Listing.window (l : Listing) (k n : Nat) : List Int16 :=
  ((l.steps.take k).drop (k - n)).filterMap fun step => step.dest?.map Address.id

/-- The temporaries of a function that is entered with the given arguments: they
stand in the lowest slots. -/
def Listing.entered (l : Listing) (args : List Value) (t : Int16) : Option Value :=
  args[l.slot t]?

/-- What a journey works with and does not change. -/
structure Chart where
  listings : List Listing
  constants : Array Value
  procedures : Array Procedure

/-- An activation of a function: the step it is at and the temporaries set. -/
structure Visit where
  func : Nat
  pos : Nat
  temps : Int16 → Option Value

namespace Visit

def move (v : Visit) : Visit := { v with pos := v.pos + 1 }

def jump (v : Visit) (target : Nat) : Visit := { v with pos := target }

def set (v : Visit) (t : Int16) (x : Value) : Visit :=
  { v with temps := Function.update v.temps t (some x) }

end Visit

/-- A caller, which goes on when the temporary for the answer is set. -/
structure Waiting where
  visit : Visit
  answer : Int16

structure Journey where
  visit : Visit
  waiting : List Waiting
  world : World

/-- What a step of a journey comes to. -/
inductive Turn where
  | on (j : Journey)
  | finished (v : Value) (w : World)
  | failed (fault : Fault) (w : World)
  /-- A temporary is read that is not set, or a call passes more arguments than
  its callee has a place for. -/
  | astray

/-- The value of an address. -/
def Chart.value? (c : Chart) (temps : Int16 → Option Value) (a : Address) : Option Value :=
  match a.space with
  | .immediate => some (.int a.id.toInt32)
  | .constant => c.constants[a.id.toNatClampNeg]?
  | .temp => temps a.id
  | .object => some (.object (UInt32.ofNat a.id.toNatClampNeg))

namespace Journey

def withVisit (j : Journey) (v : Visit) : Journey := { j with visit := v }

/-- Gives a temporary a value and goes on. -/
def assign (j : Journey) (t : Int16) (x : Value) : Turn :=
  .on (j.withVisit (j.visit.set t x).move)

/-- Jumps to where the jump at hand lands. -/
def land (l : Listing) (j : Journey) : Turn :=
  match l.landing j.visit.pos with
  | some target => .on (j.withVisit (j.visit.jump target))
  | none => .astray

/-- Leaves the function with a value. -/
def leave (j : Journey) (x : Value) : Turn :=
  match j.waiting with
  | [] => .finished x j.world
  | w :: rest => .on ⟨w.visit.set w.answer x, rest, j.world⟩

/-- The values of a window, and the temporary that the answer goes to. -/
def passed (l : Listing) (j : Journey) (n : Nat) : Option (List Value × Int16) :=
  match (l.window j.visit.pos n).mapM j.visit.temps, (l.window j.visit.pos n).head? with
  | some args, some answer => some (args, answer)
  | _, _ => none

def call (c : Chart) (l : Listing) (j : Journey) (func n : Nat) : Turn :=
  match j.passed l n, c.listings[func]? with
  | some (args, answer), some callee =>
    if args.length ≤ max 1 callee.params then
      .on ⟨⟨func, 0, callee.entered args⟩, ⟨j.visit.move, answer⟩ :: j.waiting, j.world⟩
    else .astray
  | _, _ => .astray

def callProcedure (c : Chart) (l : Listing) (j : Journey) (id n : Nat) : Turn :=
  match j.passed l n, c.procedures[id]? with
  | some (args, answer), some procedure =>
    match procedure.perform args j.world with
    | (.ok v, w) => assign { j with world := w } answer v
    | (.error fault, w) => .failed fault w
  | _, _ => .astray

/-- Takes one step. -/
def act (c : Chart) (l : Listing) (j : Journey) : Step → Turn
  | .unary dest .nop arg =>
    match c.value? j.visit.temps arg with
    | some x => j.assign dest.id x
    | none => .astray
  | .unary dest .neg arg =>
    match c.value? j.visit.temps arg with
    | some x => if x.neg.isDud then .failed .badOperands j.world else j.assign dest.id x.neg
    | none => .astray
  | .binary dest (.binary op) left right =>
    match c.value? j.visit.temps left, c.value? j.visit.temps right with
    | some x, some y =>
      match op.outcome x y with
      | .ok v => j.assign dest.id v
      | .error fault => .failed fault j.world
    | _, _ => .astray
  | .act _ => .on (j.withVisit j.visit.move)
  | .actOn .jump _ => j.land l
  | .actOn .ret arg =>
    match c.value? j.visit.temps arg with
    | some x => j.leave x
    | none => .astray
  | .actOnTwo .jumpElse arg _ =>
    match c.value? j.visit.temps arg with
    | some x =>
      match x.truthy? with
      | some true => .on (j.withVisit j.visit.move)
      | some false => j.land l
      | none => .failed .undecidedCondition j.world
    | none => .astray
  | .actOnTwo .call func count => j.call c l func.id.toNatClampNeg count.id.toNatClampNeg
  | .actOnTwo .nativeCall id count =>
    j.callProcedure c l id.id.toNatClampNeg count.id.toNatClampNeg
  | _ => .astray

/-- The step that a journey takes next. -/
def step (c : Chart) (j : Journey) : Turn :=
  match c.listings[j.visit.func]? with
  | none => .astray
  | some l =>
    match l.steps[j.visit.pos]? with
    | none => .failed .endOfCode j.world
    | some step => j.act c l step

/-- A journey that gets from one state to another, with at most so many callers waiting in
all the states on the way. -/
inductive Reaches (c : Chart) (most : Nat) : Journey → Journey → Prop where
  | refl {j : Journey} (few : j.waiting.length ≤ most) : Reaches c most j j
  | head {j k l : Journey} (few : j.waiting.length ≤ most) (first : j.step c = .on k)
    (rest : Reaches c most k l) : Reaches c most j l

namespace Reaches

variable {c : Chart} {most : Nat} {j k l : Journey}

theorem trans (h : j.Reaches c most k) (h' : k.Reaches c most l) : j.Reaches c most l := by
  induction h with
  | refl => exact h'
  | head few first _ ih => exact .head few first (ih h')

theorem mono {most' : Nat} (h : j.Reaches c most k) (le : most ≤ most') :
    j.Reaches c most' k := by
  induction h with
  | refl few => exact .refl (Nat.le_trans few le)
  | head few first _ ih => exact .head (Nat.le_trans few le) first ih

theorem waiting_le (h : j.Reaches c most k) : k.waiting.length ≤ most := by
  induction h with
  | refl few => exact few
  | head _ _ _ ih => exact ih

end Reaches

end Journey

/-! ### Listings that make sense -/

namespace Listing

/-- The temporaries that a step reads; a call reads its window. -/
def reads (l : Listing) (k : Nat) : List Int16 :=
  match l.steps[k]? with
  | none => []
  | some step =>
    match step.window? with
    | some n => l.window k n
    | none => step.args.filterMap Address.temp?

/-- The temporary is read by step `k` or one behind it. -/
def Awaits (l : Listing) (k : Nat) (t : Int16) : Prop := ∃ q, k ≤ q ∧ t ∈ l.reads q

/-- The temporary that a step writes. -/
def writes? (l : Listing) (k : Nat) : Option Int16 :=
  l.steps[k]?.bind fun step => step.dest?.map Address.id

/-- The steps in front of a call copy its arguments to temporaries that no other
step writes, and of which only the first is read behind the call. -/
structure Window (l : Listing) (k n : Nat) : Prop where
  positive : 0 < n
  le : n ≤ k
  copies : ∀ i, k - n ≤ i → i < k → ∃ t a, l.steps[i]? = some (.copy (.temp t) a) ∧
    ¬ IsParam l.params t ∧ ∀ q, l.writes? q = some t → q = i
  rest : ∀ i t, k - n < i → i < k → l.writes? i = some t → ¬ l.Awaits (k + 1) t

end Listing

/-- An operand that can be read: a number, a constant of the pool, a temporary. -/
def Address.Sound (pool : Nat) (a : Address) : Prop :=
  match a.space with
  | .immediate | .temp => True
  | .constant => 0 ≤ a.id ∧ a.id.toNatClampNeg < pool
  | .object => False

/-- The steps that compiling trees gives. -/
inductive Step.Legal (pool functions procedures : Nat) : Step → Prop where
  | copy (t : Int16) {a : Address} (sound : a.Sound pool) :
    Legal pool functions procedures (.unary (.temp t) .nop a)
  | neg (t : Int16) {a : Address} (sound : a.Sound pool) :
    Legal pool functions procedures (.unary (.temp t) .neg a)
  | binary (t : Int16) (op : BinaryOp) {a b : Address} (sound : a.Sound pool)
    (sound' : b.Sound pool) : Legal pool functions procedures (.binary (.temp t) (.binary op) a b)
  | nop : Legal pool functions procedures (.act .nop)
  | savePatch : Legal pool functions procedures (.act .savePatch)
  | shufflePatch : Legal pool functions procedures (.act .shufflePatch)
  | patchJump : Legal pool functions procedures (.act .patchJump)
  | patchJumpElse : Legal pool functions procedures (.act .patchJumpElse)
  | condensed : Legal pool functions procedures (.act .condensed)
  | jump : Legal pool functions procedures (.actOn .jump (.immediate 0))
  | ret {a : Address} (sound : a.Sound pool) : Legal pool functions procedures (.actOn .ret a)
  | jumpElse {a : Address} (sound : a.Sound pool) :
    Legal pool functions procedures (.actOnTwo .jumpElse a (.immediate 0))
  | call {func count : Int16} (named : 0 ≤ func) (known : func.toNatClampNeg < functions)
    (some : 0 < count) :
    Legal pool functions procedures (.actOnTwo .call (.immediate func) (.immediate count))
  | nativeCall {id count : Int16} (named : 0 ≤ id) (known : id.toNatClampNeg < procedures)
    (some : 0 < count) :
    Legal pool functions procedures (.actOnTwo .nativeCall (.immediate id) (.immediate count))

/-- A listing that makes sense: every temporary is written by an earlier step
than those that read it, calls have their windows, and every jump lands. -/
structure Listing.Orderly (pool functions procedures : Nat) (l : Listing) : Prop where
  legal : ∀ (k : Nat) (step : Step), l.steps[k]? = some step → step.Legal pool functions procedures
  read : ∀ k t, t ∈ l.reads k → IsParam l.params t ∨ t ∈ l.names k
  window : ∀ (k : Nat) (step : Step) (n : Nat),
    l.steps[k]? = some step → step.window? = some n → l.Window k n
  room_le : l.room l.steps.length ≤ numberRange - 1
  played : ∃ p, Patching.start.play l.markers = some p ∧ p.pending = []
  saved : ∀ (k : Nat) (op : Op),
    l.markers[k]? = some op → op.IsJump → l.markers[k + 1]? = some .savePatch

end RegisterCode
