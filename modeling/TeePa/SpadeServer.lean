import TeePa.Receiver
import TeePa.Runs
import TeePa.Threads

/-! The Unix socket server that hands the translated logs to SPADE. Every accepted
connection has a thread, which goes on after its peer has gone; all of them take
their logs from one deque. How many bytes a send accepts is an input. -/
namespace TeePa.SpadeServer
open Texts Receiver Runs Threads

inductive Pc where
  | test
  | pop
  | send (temp : Text)
  | dead
  deriving DecidableEq, Repr

structure Client where
  isOpen : Bool
  received : Bytes
  pc : Pc
  deriving DecidableEq, Repr

structure Shared where
  buffers : Buffers
  removed : List Text

structure System where
  shared : Shared
  clients : List Client

inductive Action where
  | parse (data : Text)
  | connect
  | disconnect (index : Nat)
  | thread (index accepted : Nat)
  deriving DecidableEq, Repr

def start : System := ⟨⟨noLogs,[]⟩,[]⟩

def take (s : Shared) (client : Client) : Shared × Client := match s.buffers.audit.popleft with
  | none => (s,{client with pc := .dead})
  | some (temp,rest) =>
      (⟨{s.buffers with audit := rest},s.removed ++ [temp]⟩,{client with pc := .send temp})

/- send returns after some of the bytes, at least one, and raises on a peer that
has gone. Nothing looks at what it returns. -/
def listenClient (accepted : Nat) (s : Shared) (client : Client) : Option (Shared × Client) :=
  match client.pc with
  | .test => some (s,if s.buffers.audit.items.length > 30 then {client with pc := .pop} else client)
  | .pop => some (take s client)
  | .send temp =>
      if client.isOpen then
        if 0 < accepted ∧ accepted ≤ (encode temp).length then
          some (s,{client with
            received := client.received ++ (encode temp).take accepted
            pc := .test})
        else none
      else some (s,{client with pc := .dead})
  | .dead => none

def hangUp (s : Shared) (client : Client) : Option (Shared × Client) :=
  some (s,{client with isOpen := false})

def step (s : System) : Action → Option System
  | .parse data => some {s with shared := ⟨parseEventLog data s.shared.buffers,s.shared.removed⟩}
  | .connect => some {s with clients := s.clients ++ [⟨true,[],.test⟩]}
  | .disconnect index => (move hangUp index s.shared s.clients).map (fun r => ⟨r.1,r.2⟩)
  | .thread index accepted =>
      (move (listenClient accepted) index s.shared s.clients).map (fun r => ⟨r.1,r.2⟩)

def sending (client : Client) : Option Text := match client.pc with
  | .send temp => some temp
  | _ => none

def held (client : Client) : List Text := (sending client).toList

def Written (removed : List Text) (clients : List Client) : Prop :=
  ∃ writes : List (List Text),
    writes.map (fun logs => logs.flatMap encode) = clients.map Client.received ∧
    removed.Perm (writes.flatten ++ clients.flatMap held)

structure Delivered (s : System) : Prop where
  kept : s.shared.removed ++ s.shared.buffers.audit.items = s.shared.buffers.appended
  written : Written s.shared.removed s.clients

def Room (s : System) : Action → Prop
  | .parse data => s.shared.buffers.audit.items.length + (logsOf data).length < 10000
  | _ => True
instance (s) : (action : Action) → Decidable (Room s action)
  | .parse _ => Nat.decLt _ _
  | .connect | .disconnect _ | .thread _ _ => .isTrue trivial

def Reliable (s : System) : Action → Prop
  | .thread index accepted => ∀ client ∈ s.clients[index]?, ∀ temp ∈ sending client,
      client.isOpen = true ∧ accepted = (encode temp).length
  | _ => True
instance (s) : (action : Action) → Decidable (Reliable s action)
  | .thread index accepted => inferInstanceAs (Decidable (∀ client ∈ s.clients[index]?,
      ∀ temp ∈ sending client, client.isOpen = true ∧ accepted = (encode temp).length))
  | .connect | .disconnect _ | .parse _ => .isTrue trivial

theorem startDelivered : Delivered start := ⟨rfl,[],rfl,.refl _⟩

theorem writtenMove {removed : List Text} {before after : List Client} {client client' : Client}
    (h : Written removed (before ++ client :: after)) (logs taken : List Text)
    (received : client'.received = client.received ++ logs.flatMap encode)
    (balance : (logs ++ held client').Perm (held client ++ taken)) :
    Written (removed ++ taken) (before ++ client' :: after) := by
  obtain ⟨writes,contents,perm⟩ := h
  rw [List.map_append,List.map_cons] at contents
  obtain ⟨front,back,rfl,fronts,backs⟩ := List.map_eq_append_iff.mp contents
  obtain ⟨own,rest,rfl,written,rests⟩ := List.map_eq_cons_iff.mp backs
  refine ⟨front ++ (own ++ logs) :: rest,?_,?_⟩
  · rw [List.map_append,List.map_cons,List.map_append,List.map_cons,fronts,rests,received,
      List.flatMap_append,written]
  · refine List.perm_iff_count.mpr (fun log => ?_)
    have all := perm.count_eq log
    have one := balance.count_eq log
    simp only [List.flatten_append,List.flatten_cons,List.flatMap_append,List.flatMap_cons,
      List.count_append] at all one ⊢
    omega

theorem writtenSame {removed : List Text} {before after : List Client} {client client' : Client}
    (h : Written removed (before ++ client :: after)) (received : client'.received = client.received)
    (same : held client' = held client) : Written removed (before ++ client' :: after) := by
  have moved := writtenMove h [] [] (by simpa using received) (by simp [same])
  rwa [List.append_nil] at moved

section Step
variable {s t : Shared} {before after : List Client} {client client' : Client}

theorem takeKept (kept : s.removed ++ s.buffers.audit.items = s.buffers.appended) :
    (take s client).1.removed ++ (take s client).1.buffers.audit.items =
      (take s client).1.buffers.appended := by
  unfold take
  cases popped : s.buffers.audit.popleft with
  | none => exact kept
  | some result =>
    rw [Deque.popleftItems popped] at kept
    simpa using kept

theorem takeWritten (idle : held client = [])
    (h : Written s.removed (before ++ client :: after)) :
    Written (take s client).1.removed (before ++ (take s client).2 :: after) := by
  unfold take
  cases s.buffers.audit.popleft with
  | none => exact writtenSame h rfl idle.symm
  | some result => exact writtenMove h [] [result.1] (by simp) (by rw [idle]; exact .refl _)

theorem threadKept {accepted : Nat} (ok : listenClient accepted s client = some (t,client'))
    (kept : s.removed ++ s.buffers.audit.items = s.buffers.appended) :
    t.removed ++ t.buffers.audit.items = t.buffers.appended := by
  unfold listenClient at ok
  split at ok
  · cases Option.some.inj ok; exact kept
  · have moved := @takeKept s client kept
    rwa [Option.some.inj ok] at moved
  · split at ok
    · split at ok
      · cases Option.some.inj ok; exact kept
      · contradiction
    · cases Option.some.inj ok; exact kept
  · contradiction

theorem threadWritten {accepted : Nat} (ok : listenClient accepted s client = some (t,client'))
    (reliable : ∀ temp ∈ sending client, client.isOpen = true ∧ accepted = (encode temp).length)
    (h : Written s.removed (before ++ client :: after)) :
    Written t.removed (before ++ client' :: after) := by
  unfold listenClient at ok
  split at ok
  · rename_i pc
    cases Option.some.inj ok
    refine writtenSame h ?_ ?_ <;> split <;> simp [held,sending,pc]
  · rename_i pc
    have moved := @takeWritten s before after client (by simp [held,sending,pc]) h
    rwa [Option.some.inj ok] at moved
  · rename_i temp pc
    obtain ⟨isOpen,all⟩ := reliable temp (by simp [sending,pc])
    rw [if_pos isOpen] at ok
    split at ok
    · cases Option.some.inj ok
      let sent : Client := {client with
        received := client.received ++ (encode temp).take accepted
        pc := .test}
      have moved := @writtenMove s.removed before after client sent h [temp] []
        (by simp [sent,all]) (by simp [sent,held,sending,pc])
      rwa [List.append_nil] at moved
    · contradiction
  · contradiction

end Step

theorem stepDelivered {s t : System} {action : Action} (h : Delivered s) (room : Room s action)
    (reliable : Reliable s action) (ok : step s action = some t) : Delivered t := by
  obtain ⟨kept,written⟩ := h
  cases action with
  | parse data =>
    cases Option.some.inj ok
    refine ⟨?_,written⟩
    rw [parsedLogs,(foldedBuffers _ _).2.2,foldedAppended,
      Deque.appendedItems _ (Nat.le_of_lt room),← List.append_assoc,kept]
  | connect =>
    cases Option.some.inj ok
    obtain ⟨writes,contents,perm⟩ := written
    exact ⟨kept,writes ++ [[]],by simp [contents],by simpa [held,sending] using perm⟩
  | disconnect index =>
    obtain ⟨result,turn,rfl⟩ := Option.map_eq_some_iff.mp ok
    obtain ⟨before,after,own,own',m⟩ := moved turn
    have hung := Option.some.inj m.step
    rw [Prod.mk.injEq] at hung
    refine ⟨hung.1 ▸ kept,?_⟩
    change Written result.1.removed result.2
    rw [m.threads] at written
    rw [m.threads',← hung.1,← hung.2]
    exact writtenSame written rfl rfl
  | thread index accepted =>
    obtain ⟨result,turn,rfl⟩ := Option.map_eq_some_iff.mp ok
    obtain ⟨before,after,own,own',m⟩ := moved turn
    refine ⟨threadKept m.step kept,?_⟩
    rw [m.threads']
    exact threadWritten m.step (reliable own m.here) (m.threads ▸ written)

theorem deliveredOnce {actions : List Action} {s : System}
    (run : Run (Restrict (fun s a => Room s a ∧ Reliable s a) (Of step)) start actions s) :
    Delivered s := by
  refine invariant ?_ run startDelivered
  rintro s action t h ⟨⟨room,reliable⟩,ok⟩
  exact stepDelivered h room reliable ok

theorem writtenSize {removed : List Text} {clients : List Client} (h : Written removed clients) :
    (removed.flatMap encode).length = (clients.flatMap Client.received).length +
      ((clients.flatMap held).flatMap encode).length := by
  obtain ⟨writes,contents,perm⟩ := h
  have whole : writes.flatten.flatMap encode = clients.flatMap Client.received := by
    rw [List.flatMap_def (l := clients),← contents,← List.flatMap_id (L := writes),List.flatMap_assoc,
      List.flatMap_def]
    rfl
  rw [(perm.flatMap_right encode).length_eq,List.flatMap_append,List.length_append,whole]

theorem unreliableLoses {s t : System} {index accepted : Nat} {client : Client} {temp : Text}
    (h : Delivered s) (turn : step s (.thread index accepted) = some t)
    (here : s.clients[index]? = some client) (pc : client.pc = .send temp) (bytes : encode temp ≠ [])
    (failed : ¬ (client.isOpen = true ∧ accepted = (encode temp).length)) : ¬ Delivered t := by
  rintro ⟨-,written'⟩
  obtain ⟨result,acted,rfl⟩ := Option.map_eq_some_iff.mp turn
  obtain ⟨before,after,own,own',m⟩ := moved acted
  cases Option.some.inj (here.symm.trans m.here)
  have size := writtenSize (m.threads ▸ h.written)
  have size' := writtenSize (m.threads' ▸ written')
  have more : 0 < (encode temp).length := List.length_pos_iff.mpr bytes
  have kept : result.1.removed = s.shared.removed ∧ held own' = [] ∧
      own'.received.length < client.received.length + (encode temp).length := by
    have acts := m.step
    simp only [listenClient,pc] at acts
    split at acts
    · rename_i isOpen
      split at acts
      · rename_i within
        obtain ⟨shared,rfl⟩ := Prod.mk.inj (Option.some.inj acts)
        refine ⟨congrArg Shared.removed shared.symm,rfl,?_⟩
        have short : accepted ≠ (encode temp).length := fun all => failed ⟨isOpen,all⟩
        simp only [List.length_append,List.length_take]
        omega
      · contradiction
    · obtain ⟨shared,rfl⟩ := Prod.mk.inj (Option.some.inj acts)
      exact ⟨congrArg Shared.removed shared.symm,rfl,Nat.lt_add_of_pos_right more⟩
  have own : held client = [temp] := by simp [held,sending,pc]
  simp only [List.flatMap_append,List.flatMap_cons,List.length_append,kept.1,kept.2.1,own,
    List.flatMap_nil,List.length_nil] at size size'
  omega

def manyRecords : Text :=
  (List.replicate 31 "audit(1.2:3): cwd=\"/\",node=h\n".toList).flatten

def answered : List Action :=
  [.parse manyRecords,.connect,.thread 0 0,.thread 0 0,.thread 0 38]

def goneClient : List Action :=
  [.parse manyRecords,.connect,.thread 0 0,.thread 0 0,.disconnect 0,.thread 0 38]

theorem deliveredOnceAnswered : ∃ s,
    Run (Restrict (fun s a => Room s a ∧ Reliable s a) (Of step)) start answered s ∧
    s.clients.map (fun c => c.received.length) = [38] ∧ Delivered s := by
  have ran : (execWithin (fun s a => Room s a ∧ Reliable s a) step start answered).map
      (fun s => s.clients.map (fun c => c.received.length)) = some [38] := by decide +kernel
  obtain ⟨s,ok,bytes⟩ := Option.map_eq_some_iff.mp ran
  exact ⟨s,execWithinRun ok,bytes,deliveredOnce (execWithinRun ok)⟩

theorem goneClientLoses : ∃ s, Run (Restrict Room (Of step)) start goneClient s ∧
    ¬ Delivered s := by
  have ran : (execWithin Room step start goneClient).map (fun s =>
      ((s.shared.removed.flatMap encode).length,s.clients.flatMap Client.received,
        s.clients.flatMap held)) = some (38,[],[]) := by decide +kernel
  obtain ⟨s,ok,facts⟩ := Option.map_eq_some_iff.mp ran
  obtain ⟨removed,facts⟩ := Prod.mk.inj facts
  obtain ⟨received,holds⟩ := Prod.mk.inj facts
  refine ⟨s,execWithinRun ok,fun h => ?_⟩
  have size := writtenSize h.written
  rw [removed,received,holds] at size
  simp at size

end TeePa.SpadeServer
