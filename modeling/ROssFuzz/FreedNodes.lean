import ROssFuzz.TransitionRuns
import Mathlib.Logic.Function.Basic

/-!
# Freed nodes

Under `PROTECTCHECK` a collection marks the small nodes that it frees `FREESXP`, keeps in `OLDTYPE`
what they were, and overwrites their payloads. An accessor aborts on a marked node; C code that
reads the struct directly sees the payload.

What is unreachable, which node the allocator hands out and through which stale pointers the
program goes are the scheduler's. Types are set through `CHK`, and direct writes go to payloads.
Large vectors are not among the nodes.
-/

namespace ROssFuzz.FreedNodes
open TransitionRuns

/-- `FREED_FILL_BYTE`. -/
def freedFillByte : UInt8 := 0xDE

structure Layout where
  numSmallNodeClasses : ℕ
  /-- `sizeof(s->u)` -/
  sizeofU : ℕ
  nodeClassSize : ℕ → ℕ
  sizeofVecrec : ℕ

/-- Class 0 has the union of the node, the others have vectors. -/
def Layout.payloadSize (L : Layout) (nodeClass : ℕ) : ℕ :=
  if nodeClass = 0 then L.sizeofU else L.nodeClassSize nodeClass * L.sizeofVecrec

structure Payload (L : Layout) where
  nodeClass : ℕ
  bytes : List UInt8
  small : nodeClass < L.numSmallNodeClasses
  fits : bytes.length = L.payloadSize nodeClass

/-- `TYPEOF`, where `none` is `FREESXP`, and `OLDTYPE`. -/
structure Node (L : Layout) (T : Type) where
  type : Option T
  oldType : Option T
  payload : Payload L

def memset (bytes : List UInt8) (b : UInt8) (n : ℕ) : List UInt8 := .replicate n b ++ bytes.drop n

variable {L : Layout} {T : Type}

theorem memset_payload (p : Payload L) (b : UInt8) :
    memset p.bytes b (L.payloadSize p.nodeClass) = .replicate (L.payloadSize p.nodeClass) b := by
  rw [memset, ← p.fits, List.drop_length, List.append_nil]

/-- The bytes written are the bytes of the payload and no others. -/
def fillFreedNode (p : Payload L) : Payload L where
  nodeClass := p.nodeClass
  bytes :=
    if p.nodeClass = 0 then memset p.bytes freedFillByte L.sizeofU
    else if p.nodeClass < L.numSmallNodeClasses then
      memset p.bytes freedFillByte (L.nodeClassSize p.nodeClass * L.sizeofVecrec)
    else p.bytes
  small := p.small
  fits := by
    have hall := congrArg List.length (memset_payload p freedFillByte)
    rw [List.length_replicate] at hall
    by_cases hc : p.nodeClass = 0
    · simpa [hc, Layout.payloadSize] using hall
    · simpa [hc, p.small, Layout.payloadSize] using hall

theorem fillFreedNode_bytes (p : Payload L) :
    (fillFreedNode p).bytes = .replicate (L.payloadSize p.nodeClass) freedFillByte := by
  rw [← memset_payload]
  by_cases hc : p.nodeClass = 0
  · simp [fillFreedNode, hc, Layout.payloadSize]
  · simp [fillFreedNode, hc, p.small, Layout.payloadSize]

/-- What `RunGenCollect` does to a node that nothing reaches. A node that is marked already keeps
its `OLDTYPE`. -/
def Node.free (n : Node L T) : Node L T :=
  match n.type with
  | none => n
  | some t => ⟨none, some t, fillFreedNode n.payload⟩

/-- A write through a pointer to the node, inside of its payload. -/
def Node.store (n : Node L T) (i : ℕ) (b : UInt8) : Node L T :=
  { n with payload := { n.payload with
      bytes := n.payload.bytes.set i b
      fits := by rw [List.length_set, n.payload.fits] } }

structure State (L : Layout) (T : Type) where
  nodes : ℕ → Option (Node L T)
  aborted : Bool

inductive Event (T : Type)
  | allocated (x : ℕ) (t : T) (nodeClass : ℕ)
  | collected (unreachable : List ℕ)
  | retyped (x : ℕ) (t : T)
  | stored (x : ℕ)
  /-- A direct read of the payload. -/
  | read (x : ℕ) (bytes : List UInt8)
  | accessed (x : ℕ) (t : T)
  /-- `unprotected object encountered`, with what it was. -/
  | aborted (x : ℕ) (was : Option T)
  deriving DecidableEq

inductive Action (L : Layout) (T : Type)
  | allocate (x : ℕ) (t : T) (payload : Payload L)
  | collect (unreachable : List ℕ)
  /-- `SET_TYPEOF` -/
  | retype (x : ℕ) (t : T)
  | store (x i : ℕ) (b : UInt8)
  | read (x : ℕ)
  | access (x : ℕ)

/-- The allocator has new nodes, and nodes of the class that the collector has freed. With
`gc_inhibit_release` those are forwarded, and it never sees them. -/
def available (inhibit : Bool) (nodeClass : ℕ) : Option (Node L T) → Bool
  | none => true
  | some n => !inhibit && n.type.isNone && n.payload.nodeClass == nodeClass

/-- The accessors' `CHK`, and what they do with the type that it finds. -/
def chk (x : ℕ) (n : Node L T) (s : State L T) (next : T → Event T × State L T) :
    Event T × State L T :=
  match n.type with
  | none => (.aborted x n.oldType, { s with aborted := true })
  | some t => next t

def liveStep (inhibit : Bool) (s : State L T) : Action L T → Option (Event T × State L T)
  | .allocate x t payload =>
      if available inhibit payload.nodeClass (s.nodes x) then
        some (.allocated x t payload.nodeClass,
          { s with nodes := Function.update s.nodes x (some ⟨some t, none, payload⟩) })
      else none
  | .collect unreachable => some (.collected unreachable, { s with
      nodes := fun x => if x ∈ unreachable then (s.nodes x).map Node.free else s.nodes x })
  | .retype x t => do
      let n ← s.nodes x
      some (chk x n s fun _ => (.retyped x t,
        { s with nodes := Function.update s.nodes x (some { n with type := some t }) }))
  | .store x i b => do
      let n ← s.nodes x
      some (.stored x, { s with nodes := Function.update s.nodes x (some (n.store i b)) })
  | .read x => do
      let n ← s.nodes x
      some (.read x n.payload.bytes, s)
  | .access x => do
      let n ← s.nodes x
      some (chk x n s fun t => (.accessed x t, s))

def step (inhibit : Bool) (s : State L T) (a : Action L T) : Option (Event T × State L T) :=
  if s.aborted then none else liveStep inhibit s a

def system (L : Layout) (T : Type) (inhibit : Bool) : System (State L T) (Action L T) (Event T) where
  init s := s = ⟨fun _ => none, false⟩
  step := step inhibit

/-- What has become of a node; `intact` until something is written to it once it is freed. -/
inductive Status (T : Type)
  | absent
  | live (t : T) (nodeClass : ℕ)
  | freed (was : T) (nodeClass : ℕ) (intact : Bool)
  deriving DecidableEq

/-- An event as far as node `x` is concerned. -/
def noted (x : ℕ) (st : Status T) : Event T → Status T
  | .allocated y t nodeClass => if y = x then .live t nodeClass else st
  | .collected unreachable =>
      match st with
      | .live t nodeClass => if x ∈ unreachable then .freed t nodeClass true else st
      | _ => st
  | .retyped y t =>
      match st with
      | .live _ nodeClass => if y = x then .live t nodeClass else st
      | _ => st
  | .stored y =>
      match st with
      | .freed was nodeClass _ => if y = x then .freed was nodeClass false else st
      | _ => st
  | _ => st

def status (es : List (Event T)) (x : ℕ) : Status T := es.foldl (noted x) .absent

@[simp] theorem status_snoc (es : List (Event T)) (e : Event T) (x : ℕ) :
    status (es ++ [e]) x = noted x (status es x) e := by
  simp [status]

/-- What an event shows, where the nodes are as `status` has them. -/
def Explained (L : Layout) (inhibit : Bool) (status : ℕ → Status T) : Event T → Prop
  | .allocated x _ nodeClass => status x = .absent ∨
      inhibit = false ∧ ∃ was intact, status x = .freed was nodeClass intact
  | .collected _ => True
  | .retyped x _ => ∃ was nodeClass, status x = .live was nodeClass
  | .stored x => status x ≠ .absent
  | .read x bytes =>
      (∃ t nodeClass, status x = .live t nodeClass ∧ bytes.length = L.payloadSize nodeClass) ∨
      ∃ was nodeClass intact, status x = .freed was nodeClass intact ∧
        (intact = true → bytes = .replicate (L.payloadSize nodeClass) freedFillByte)
  | .accessed x t => ∃ nodeClass, status x = .live t nodeClass
  | .aborted x was => ∃ t nodeClass intact, was = some t ∧ status x = .freed t nodeClass intact

/-- A node in the heap is as its status says. -/
inductive Status.Shows : Status T → Option (Node L T) → Prop
  | absent : Shows .absent none
  | live {n : Node L T} {t : T} (htype : n.type = some t) :
      Shows (.live t n.payload.nodeClass) (some n)
  | freed {n : Node L T} {was : T} {intact : Bool} (htype : n.type = none)
      (hold : n.oldType = some was) (hbytes : intact = true →
        n.payload.bytes = .replicate (L.payloadSize n.payload.nodeClass) freedFillByte) :
      Shows (.freed was n.payload.nodeClass intact) (some n)

theorem Status.Shows.free {st : Status T} {n : Node L T} (h : st.Shows (some n)) {x : ℕ}
    {unreachable : List ℕ} (hx : x ∈ unreachable) :
    (noted x st (.collected unreachable)).Shows (some n.free) := by
  cases h with
  | @live _ t htype =>
    have hfree : n.free = ⟨none, some t, fillFreedNode n.payload⟩ := by simp [Node.free, htype]
    simp only [noted, hx, if_true, hfree]
    exact .freed (n := ⟨none, some t, fillFreedNode n.payload⟩) rfl rfl
      fun _ => fillFreedNode_bytes n.payload
  | freed htype hold hbytes =>
    have hfree : n.free = n := by simp [Node.free, htype]
    rw [hfree]
    exact .freed htype hold hbytes

theorem Status.Shows.store {st : Status T} {n : Node L T} (h : st.Shows (some n)) (x i : ℕ)
    (b : UInt8) : (noted x st (.stored x)).Shows (some (n.store i b)) := by
  cases h with
  | live htype => exact .live (n := n.store i b) htype
  | freed htype hold =>
    simp only [noted, if_true]
    exact .freed (n := n.store i b) htype hold nofun

/-- What an event does not name it leaves alone. -/
theorem noted_other {x y : ℕ} (hxy : y ≠ x) (st : Status T) {e : Event T}
    (he : e = .stored y ∨ (∃ t, e = .retyped y t) ∨ ∃ t nodeClass, e = .allocated y t nodeClass) :
    noted x st e = st := by
  rcases he with rfl | ⟨t, rfl⟩ | ⟨t, nodeClass, rfl⟩
  · cases st <;> simp [noted, hxy]
  · cases st <;> simp [noted, hxy]
  · simp [noted, hxy]

def Inv (es : List (Event T)) (s : State L T) : Prop := ∀ x, (status es x).Shows (s.nodes x)

theorem Inv.at {es : List (Event T)} {s : State L T} (hi : Inv es s) {x : ℕ} {n : Node L T}
    (hn : s.nodes x = some n) : (status es x).Shows (some n) := hn ▸ hi x

theorem Inv.update {es : List (Event T)} {s : State L T} (hi : Inv es s) {y : ℕ} {e : Event T}
    {n : Node L T}
    (he : e = .stored y ∨ (∃ t, e = .retyped y t) ∨ ∃ t nodeClass, e = .allocated y t nodeClass)
    (hy : (noted y (status es y) e).Shows (some n)) :
    Inv (es ++ [e]) { s with nodes := Function.update s.nodes y (some n) } := by
  intro x
  rw [status_snoc]
  by_cases hx : x = y
  · subst hx
    simpa using hy
  · rw [noted_other (Ne.symm hx) _ he]
    simpa [Function.update_of_ne hx] using hi x

theorem Inv.collect {es : List (Event T)} {s : State L T} (hi : Inv es s) (unreachable : List ℕ) :
    Inv (es ++ [.collected unreachable]) { s with
      nodes := fun x => if x ∈ unreachable then (s.nodes x).map Node.free else s.nodes x } := by
  intro x
  rw [status_snoc]
  by_cases hmem : x ∈ unreachable
  · cases hn : s.nodes x with
    | none =>
      have hx := hi x
      rw [hn] at hx
      generalize status es x = st at hx
      cases hx
      simpa [hmem, hn, noted] using Status.Shows.absent
    | some n => simpa [hmem, hn] using (hi.at hn).free hmem
  · have hsame : noted x (status es x) (.collected unreachable) = status es x := by
      cases status es x <;> simp [noted, hmem]
    simpa [hsame, hmem] using hi x

/-- What the allocator hands out nothing holds, or the collector has freed. -/
theorem Inv.available {inhibit : Bool} {es : List (Event T)} {s : State L T} (hi : Inv es s)
    {x nodeClass : ℕ} (h : available inhibit nodeClass (s.nodes x) = true) :
    status es x = .absent ∨
      inhibit = false ∧ ∃ was intact, status es x = .freed was nodeClass intact := by
  have hx := hi x
  generalize status es x = st at hx
  generalize s.nodes x = n at h hx
  cases hx with
  | absent => exact .inl rfl
  | live htype => simp [FreedNodes.available, htype] at h
  | freed htype =>
    obtain ⟨hinhibit, rfl⟩ : inhibit = false ∧ _ = nodeClass := by
      simpa [FreedNodes.available, htype] using h
    exact .inr ⟨hinhibit, _, _, rfl⟩

/-- A read returns the sentinel from a node that has been freed. -/
theorem Inv.read {inhibit : Bool} {es : List (Event T)} {s : State L T} (hi : Inv es s) {x : ℕ}
    {n : Node L T} (hn : s.nodes x = some n) :
    Explained L inhibit (status es) (.read x n.payload.bytes) := by
  have hx := hi.at hn
  generalize hst : status es x = st at hx
  cases hx with
  | live => exact .inl ⟨_, _, hst, n.payload.fits⟩
  | freed _ _ hbytes => exact .inr ⟨_, _, _, hst, hbytes⟩

/-- An accessor goes on from a live node and aborts on one that has been freed. -/
theorem Inv.chk {inhibit : Bool} {es : List (Event T)} {s s' : State L T} (hi : Inv es s)
    {x : ℕ} {n : Node L T} {next : T → Event T × State L T} {e : Event T} (hn : s.nodes x = some n)
    (hchk : chk x n s next = (e, s'))
    (hnext : ∀ t, n.type = some t → status es x = .live t n.payload.nodeClass → next t = (e, s') →
      Explained L inhibit (status es) e ∧ Inv (es ++ [e]) s') :
    Explained L inhibit (status es) e ∧ Inv (es ++ [e]) s' := by
  have hx := hi.at hn
  generalize hst : status es x = st at hx
  cases hx with
  | @live _ t htype => exact hnext t htype hst (by simpa [FreedNodes.chk, htype] using hchk)
  | freed htype hold =>
    obtain ⟨rfl, rfl⟩ : .aborted x n.oldType = e ∧ { s with aborted := true } = s' := by
      simpa [FreedNodes.chk, htype] using hchk
    exact ⟨⟨_, _, _, hold, hst⟩, fun y => by simpa [noted] using hi y⟩

/-- A step shows what it should where the statuses are right, and keeps them right. -/
theorem liveStep_explained {inhibit : Bool} {es : List (Event T)} {s s' : State L T}
    {a : Action L T} {e : Event T} (hi : Inv es s) (hs : liveStep inhibit s a = some (e, s')) :
    Explained L inhibit (status es) e ∧ Inv (es ++ [e]) s' := by
  cases a with
  | allocate x t payload =>
    rw [liveStep] at hs
    split at hs
    case isFalse => cases hs
    case isTrue havailable =>
    obtain ⟨rfl, rfl⟩ : _ = e ∧ _ = s' := by simpa using hs
    refine ⟨hi.available havailable, hi.update (.inr (.inr ⟨t, payload.nodeClass, rfl⟩)) ?_⟩
    simp only [noted, if_true]
    exact .live (n := ⟨some t, none, payload⟩) rfl
  | collect unreachable =>
    obtain ⟨rfl, rfl⟩ : _ = e ∧ _ = s' := by simpa [liveStep] using hs
    exact ⟨trivial, hi.collect unreachable⟩
  | retype x t =>
    obtain ⟨n, hn, hchk⟩ : ∃ n, s.nodes x = some n ∧ chk x n s (fun _ => (.retyped x t,
        { s with nodes := Function.update s.nodes x (some { n with type := some t }) })) =
          (e, s') := by
      simpa [liveStep, Option.bind_eq_some_iff] using hs
    refine hi.chk hn hchk fun was htype hst hnext => ?_
    obtain ⟨rfl, rfl⟩ := Prod.mk.inj hnext
    refine ⟨⟨was, _, hst⟩, hi.update (.inr (.inl ⟨t, rfl⟩)) ?_⟩
    simp only [hst, noted, if_true]
    exact .live (n := { n with type := some t }) rfl
  | store x i b =>
    obtain ⟨n, hn, rfl, rfl⟩ : ∃ n, s.nodes x = some n ∧ .stored x = e ∧
        { s with nodes := Function.update s.nodes x (some (n.store i b)) } = s' := by
      simpa [liveStep, Option.bind_eq_some_iff] using hs
    have hx := hi.at hn
    refine ⟨fun habsent => ?_, hi.update (.inl rfl) (hx.store x i b)⟩
    rw [habsent] at hx
    cases hx
  | read x =>
    obtain ⟨n, hn, rfl, rfl⟩ : ∃ n, s.nodes x = some n ∧ .read x n.payload.bytes = e ∧ s = s' := by
      simpa [liveStep, Option.bind_eq_some_iff] using hs
    exact ⟨hi.read hn, fun y => by simpa [noted] using hi y⟩
  | access x =>
    obtain ⟨n, hn, hchk⟩ : ∃ n, s.nodes x = some n ∧
        chk x n s (fun t => (.accessed x t, s)) = (e, s') := by
      simpa [liveStep, Option.bind_eq_some_iff] using hs
    refine hi.chk hn hchk fun t htype hst hnext => ?_
    obtain ⟨rfl, rfl⟩ := Prod.mk.inj hnext
    exact ⟨⟨_, hst⟩, fun y => by simpa [noted] using hi y⟩

theorem step_live {inhibit : Bool} {s s' : State L T} {a : Action L T} {e : Event T}
    (hs : step inhibit s a = some (e, s')) :
    s.aborted = false ∧ liveStep inhibit s a = some (e, s') := by
  simpa [step] using hs

variable {inhibit : Bool}

theorem Run.inv {es : List (Event T)} {s : State L T} (h : (system L T inhibit).Run es s) :
    Inv es s := by
  refine h.induct (I := Inv) ?_ fun es s a e t _ hi hs => (liveStep_explained hi (step_live hs).2).2
  rintro s rfl x
  exact .absent

theorem Run.explained {pre post : List (Event T)} {e : Event T} {s : State L T}
    (h : (system L T inhibit).Run (pre ++ e :: post) s) :
    Explained L inhibit (status pre) e := by
  obtain ⟨t, a, u, hrun, hs, -⟩ := h.split
  exact (liveStep_explained (Run.inv hrun) (step_live hs).2).1

theorem chk_aborted {s s' : State L T} {x y : ℕ} {n : Node L T} {was : Option T}
    {next : T → Event T × State L T} (hnext : ∀ t, (next t).1 ≠ .aborted x was)
    (h : chk y n s next = (.aborted x was, s')) : s'.aborted = true := by
  rw [chk] at h
  split at h
  next =>
    obtain ⟨-, rfl⟩ : _ ∧ { s with aborted := true } = s' := by simpa using h
    rfl
  next t _ => exact absurd (congrArg Prod.fst h) (hnext t)

theorem step_aborted {s s' : State L T} {a : Action L T} {x : ℕ} {was : Option T}
    (hs : step inhibit s a = some (.aborted x was, s')) : s'.aborted = true := by
  have hlive := (step_live hs).2
  cases a with
  | allocate => simp [liveStep] at hlive
  | collect => simp [liveStep] at hlive
  | store => simp [liveStep, Option.bind_eq_some_iff] at hlive
  | read => simp [liveStep, Option.bind_eq_some_iff] at hlive
  | retype | access =>
    obtain ⟨n, -, hchk⟩ := Option.bind_eq_some_iff.mp hlive
    refine chk_aborted ?_ (Option.some.inj hchk)
    exact fun _ => nofun

/-- The process ends where an accessor aborts. -/
theorem Run.aborted_last {pre post : List (Event T)} {x : ℕ} {was : Option T} {s : State L T}
    (h : (system L T inhibit).Run (pre ++ .aborted x was :: post) s) : post = [] := by
  obtain ⟨t, a, u, -, hs, hpost⟩ := h.split
  have haborted := step_aborted hs
  cases post with
  | nil => rfl
  | cons e post =>
    obtain ⟨b, v, hstep, -⟩ := hpost.head
    exact absurd (step_live hstep).1 (by simp [haborted])

/-- With `gc_inhibit_release` a node that has been freed stays freed. -/
theorem Run.stays_freed {pre post : List (Event T)} {s : State L T}
    (h : (system L T true).Run (pre ++ post) s) {x nodeClass : ℕ} {was : T} {intact : Bool}
    (hfreed : status pre x = .freed was nodeClass intact) :
    ∃ intact', status (pre ++ post) x = .freed was nodeClass intact' := by
  induction post using List.reverseRecOn generalizing s with
  | nil => exact ⟨intact, by simpa using hfreed⟩
  | append_singleton post e ih =>
    rw [← List.append_assoc] at h ⊢
    obtain ⟨t, a, u, hrun, -⟩ := h.split
    obtain ⟨intact', hlast⟩ := ih hrun
    have hexplained := Run.explained h
    rw [status_snoc, hlast]
    cases e with
    | allocated y t c =>
      have hxy : y ≠ x := by
        rintro rfl
        simp [Explained, hlast] at hexplained
      exact ⟨intact', by simp [noted, hxy]⟩
    | stored y =>
      by_cases hxy : y = x
      · exact ⟨false, by simp [noted, hxy]⟩
      · exact ⟨intact', by simp [noted, hxy]⟩
    | collected | retyped | read | accessed | aborted => exact ⟨intact', rfl⟩

/-- In whatever order nodes are allocated, freed and written to, change their types, and pointers to
them go stale: an accessor returns from live nodes only; on one that has been freed it ends the
process and says what the node was by then; and a direct read of one to which nothing has been written since shows the
sentinel in all of its bytes. With `gc_inhibit_release` this holds of a freed node to the end. -/
theorem freed_nodes_reported {pre post : List (Event T)} {e : Event T} {s : State L T}
    (h : (system L T inhibit).Run (pre ++ e :: post) s) :
    Explained L inhibit (status pre) e ∧
    (∀ x was, e = .aborted x was → post = []) ∧
    (inhibit = true → ∀ x was nodeClass intact, status pre x = .freed was nodeClass intact →
      ∃ intact', status (pre ++ e :: post) x = .freed was nodeClass intact') := by
  refine ⟨Run.explained h, ?_, ?_⟩
  · rintro x was rfl
    exact Run.aborted_last h
  · rintro rfl x was nodeClass intact hfreed
    exact Run.stays_freed h hfreed

/-- One small class, of four bytes. -/
def fourBytes : Layout := ⟨1, 4, fun _ => 0, 8⟩

/-- A node with a stale pointer, through which C code reads before an accessor does. It has been
made a call in between. -/
def staleSchedule : List (Action fourBytes String) :=
  [.allocate 0 "list" ⟨0, [1, 2, 3, 4], by decide, rfl⟩, .retype 0 "language", .collect [0], .read 0,
    .access 0]

def staleTrace : List (Event String) :=
  [.allocated 0 "list" 0, .retyped 0 "language", .collected [0], .read 0 [0xDE, 0xDE, 0xDE, 0xDE],
    .aborted 0 (some "language")]

theorem freed_nodes_reported_stale :
    Explained fourBytes true (status (staleTrace.take 4)) (.aborted 0 (some "language")) ∧
    ∃ intact, status staleTrace 0 = .freed "language" 0 intact := by
  obtain ⟨s, h, -⟩ : ∃ s, (system fourBytes String true).Run staleTrace s ∧ s.aborted = true :=
    System.Run.of_exec (S := system fourBytes String true) State.aborted ⟨fun _ => none, false⟩
      staleSchedule rfl rfl
  have hsplit : staleTrace = staleTrace.take 4 ++ .aborted 0 (some "language") :: [] := rfl
  rw [hsplit] at h
  obtain ⟨hexplained, -, hstays⟩ := freed_nodes_reported h
  exact ⟨hexplained, hstays rfl 0 "language" 0 true rfl⟩

end ROssFuzz.FreedNodes
