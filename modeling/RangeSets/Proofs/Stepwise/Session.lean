import RangeSets.Proofs.Stepwise.Building
import RangeSets.Proofs.Stepwise.Raising
import RangeSets.Proofs.WorthMap.Faults
/-!
# Sessions

A session is a store and a list of requests that are made of it one after another: to build, change, ask,
compare, watch and listen, with whatever arguments. Only a slot may not be made up. A set that is asked
about a slot must have handed it out since it was changed last, or else the question is not put.

The work can be done in two ways, in one step or access by access. In a sound store both come to the same
for every request. So a session that does all work access by access goes from one sound store to the
next, and if it stops, it stops at a fault that the request admits, and never at a breach.
-/

namespace RangeSets

open WorthMap

/-! ### Requests -/

/-- A change of a map. Other maps go into it by name. -/
inductive Alteration (α : Type) where
  | adjust (a : Adjustment α)
  | addMap (other : String)
  | removeMap (other : String)
  | clear

def Alteration.revision {α : Type} (store : Store α) : Alteration α → Revision α
  | .adjust a => .adjust a
  | .addMap other => .addMap (store.map other)
  | .removeMap other => .removeMap (store.map other)
  | .clear => .clear

theorem Store.Sound.revision {α : Type} [Scale α] {store : Store α} (h : store.Sound)
    (alteration : Alteration α) : (alteration.revision store).Sound := by
  cases alteration with
  | addMap other => exact h.map other
  | removeMap other => exact h.map other
  | _ => trivial

inductive Request (α : Type) where
  /-- Build a set and put it under a name. -/
  | build (name : String) (recipe : Recipe α)
  | mutate (name : String) (mutation : Mutation α)
  | ask (name : String) (question : RangeSet.Question α)
  | compare (left right : String)
  | watch (name : String) (watch? : Option Watch)
  /-- Take all that a trail has heard. -/
  | take (trail : String)
  /-- Put a map under a name, empty or a copy of another one. -/
  | buildMap (name : String) (source? : Option String)
  | alter (name : String) (alteration : Alteration α)
  | askMap (name : String) (question : WorthMap.Question α)
  | compareMaps (left right : String)
  | difference (side : Side) (left right : String)
  | watchMap (name : String) (watch? : Option Watch)

/-- The fault may come up in the request. -/
def Request.Admits {α : Type} [Scale α] (store : Store α) (fault : Fault) : Request α → Prop
  | .build _ (.requireRange lo hi) => ¬ lo ≤ hi ∧ fault = .unorderedBounds
  | .alter _ alteration => (alteration.revision store).Admits fault
  | .difference _ _ _ => fault.OfDifference
  | _ => False

/-- What comes back from a request. -/
inductive Outcome (α : Type) where
  | done
  | refused (refusal : Refusal α)
  | answered (answer : Answer α)
  /-- The question named a slot that the set had not handed out. -/
  | notAsked

/-! ### The two ways to work -/

def Stepwise.extremeDifference {α : Type} [Scale α] :
    Side → WorthMap α → WorthMap α → Except Stop Worth
  | .least => minDifference
  | .greatest => maxDifference

theorem WorthMap.Sound.difference_eq {α : Type} [Scale α] {m n : WorthMap α} (hm : m.Sound)
    (hn : n.Sound) (side : Side) :
    Stepwise.extremeDifference side m n = (m.extremeDifference n side).mapError .fault := by
  obtain ⟨p, hp⟩ := hm
  obtain ⟨q, hq⟩ := hn
  cases side with
  | least => exact hp.holds.minDifference_eq hq.holds
  | greatest => exact hp.holds.maxDifference_eq hq.holds

/-- How the work of the requests is done. -/
structure Workings (α : Type) where
  build : Store α → Recipe α → Except Stop (Except (Refusal α) (RangeSet α))
  mutate : RangeSet α → Mutation α → Except Stop (RangeSet α × List (Change α))
  answer : RangeSet α → RangeSet.Question α → Except Stop (Answer α)
  same : RangeSet α → RangeSet α → Except Stop Bool
  revise : WorthMap α → Revision α → Except Stop (WorthMap α × List (Change α))
  answerMap : WorthMap α → WorthMap.Question α → Except Stop (Answer α)
  sameMap : WorthMap α → WorthMap α → Except Stop Bool
  difference : Side → WorthMap α → WorthMap α → Except Stop Worth

namespace Workings

variable {α : Type} [Scale α] [ToString α]

/-- In one step, with nothing that could go wrong but the faults. -/
def planned : Workings α where
  build store recipe := (store.build recipe).mapError .fault
  mutate s mutation := .ok (s.mutate mutation)
  answer s question := .ok (s.answer question)
  same s t := .ok (decide (s.Same t))
  revise m r := (m.revise r).mapError .fault
  answerMap m question := .ok (m.answer question)
  sameMap m n := .ok (decide (m.Same n))
  difference side m n := (m.extremeDifference n side).mapError .fault

/-- Access by access. -/
def stepwise : Workings α where
  build := Stepwise.build
  mutate := Stepwise.mutate
  answer := Stepwise.answer
  same := Stepwise.same
  revise := Stepwise.revise
  answerMap := Stepwise.answerMap
  sameMap := Stepwise.sameMap
  difference := Stepwise.extremeDifference

end Workings

/-! ### Sessions -/

structure Session (α : Type) where
  store : Store α
  /-- The slots that each set has handed out since it was changed last. -/
  handed : List (String × Nat)

namespace Session

variable {α : Type}

def empty : Session α := ⟨.empty, []⟩

/-- The slots of a set may not be used any more. -/
def forget (s : Session α) (name : String) : Session α :=
  { s with handed := s.handed.filter fun slot => slot.1 ≠ name }

/-- A question that names a slot is put only if the set has handed it out. -/
def MayAsk (s : Session α) (name : String) (question : RangeSet.Question α) : Prop :=
  ∀ i ∈ question.slot?, (name, i) ∈ s.handed

instance (s : Session α) (name : String) (question : RangeSet.Question α) :
    Decidable (s.MayAsk name question) :=
  inferInstanceAs (Decidable (∀ i ∈ question.slot?, (name, i) ∈ s.handed))

def step (w : Workings α) (s : Session α) : Request α → Except Stop (Session α × Outcome α)
  | .build name recipe => do
      match ← w.build s.store recipe with
      | .ok built =>
          let sets := s.store.sets.place name built
          return (Session.forget { s with store := { s.store with sets } } name, .done)
      | .error refusal => return (s, .refused refusal)
  | .mutate name mutation => do
      let (sets, trails) ← s.store.sets.tryChange s.store.trails name fun set => w.mutate set mutation
      return (Session.forget { s with store := { s.store with sets, trails } } name, .done)
  | .ask name question =>
      if s.MayAsk name question then do
        let answer ← w.answer (s.store.set name) question
        return ({ s with handed := answer.slots.map (name, ·) ++ s.handed }, .answered answer)
      else .ok (s, .notAsked)
  | .compare left right => do
      return (s, .answered (.flag (← w.same (s.store.set left) (s.store.set right))))
  | .watch name watch? =>
      .ok ({ s with store := { s.store with sets := s.store.sets.setWatch name watch? } }, .done)
  | .take trail =>
      .ok ({ s with store := { s.store with trails := s.store.trails.take trail } }, .done)
  | .buildMap name source? =>
      let maps := s.store.maps.place name ((source?.map s.store.map).getD WorthMap.empty)
      .ok ({ s with store := { s.store with maps } }, .done)
  | .alter name alteration => do
      let (maps, trails) ← s.store.maps.tryChange s.store.trails name fun map =>
        w.revise map (alteration.revision s.store)
      return ({ s with store := { s.store with maps, trails } }, .done)
  | .askMap name question => do
      return (s, .answered (← w.answerMap (s.store.map name) question))
  | .compareMaps left right => do
      return (s, .answered (.flag (← w.sameMap (s.store.map left) (s.store.map right))))
  | .difference side left right => do
      return (s, .answered (.worth (← w.difference side (s.store.map left) (s.store.map right))))
  | .watchMap name watch? =>
      .ok ({ s with store := { s.store with maps := s.store.maps.setWatch name watch? } }, .done)

/-- The session after requests, the first one made first, and what came back from each. -/
def run (w : Workings α) (s : Session α) : List (Request α) → Except Stop (Session α × List (Outcome α))
  | [] => .ok (s, [])
  | r :: rest => do
      let (after, outcome) ← s.step w r
      let (final, more) ← run w after rest
      return (final, outcome :: more)

/-! ### Sound sessions -/

variable [Scale α]

/-- All sets and maps are sound, and all slots that were handed out are in use. -/
structure Sound (s : Session α) : Prop where
  store : s.store.Sound
  handed : ∀ slot ∈ s.handed, slot.2 ∈ (s.store.set slot.1).chain.live

theorem sound_empty : (empty : Session α).Sound where
  store := Store.sound_empty
  handed _ hslot := nomatch hslot

variable {s after : Session α} {name : String} {store : Store α}

theorem Sound.live (h : s.Sound) {question : RangeSet.Question α} (hmay : s.MayAsk name question) :
    ∀ i, question.slot? = some i → i ∈ (s.store.set name).chain.live :=
  fun i hi => h.handed (name, i) (hmay i hi)

/-- A change that leaves all sets as they are keeps the slots. -/
theorem Sound.keep (h : s.Sound) (hstore : store.Sound)
    (hsets : ∀ other, store.set other = s.store.set other) :
    (⟨store, s.handed⟩ : Session α).Sound where
  store := hstore
  handed slot hslot := by
    show slot.2 ∈ (store.set slot.1).chain.live
    rw [hsets]
    exact h.handed slot hslot

/-- A change of one set keeps the slots of the others. -/
theorem Sound.keepOthers (h : s.Sound) (hstore : store.Sound)
    (hsets : ∀ other, other ≠ name → store.set other = s.store.set other) :
    (Session.forget ⟨store, s.handed⟩ name).Sound where
  store := hstore
  handed slot hslot := by
    obtain ⟨hmem, hother⟩ := List.mem_filter.mp hslot
    show slot.2 ∈ (store.set slot.1).chain.live
    rw [hsets slot.1 (of_decide_eq_true hother)]
    exact h.handed slot hmem

/-! ### One request -/

variable [ToString α]

open Workings

/-- Both ways of working do the same for a request. -/
theorem Sound.step_eq (h : s.Sound) (r : Request α) : s.step stepwise r = s.step planned r := by
  cases r with
  | build name recipe =>
      have hbuild : stepwise.build s.store recipe = planned.build s.store recipe :=
        h.store.build_eq recipe
      rw [step, step, hbuild]
  | mutate name mutation =>
      have hmutate : ∀ set, s.store.sets.value? name = some set →
          stepwise.mutate set mutation = planned.mutate set mutation :=
        fun set hset => (h.store.sets name set hset).mutate_ok mutation
      rw [step, step, Shelf.tryChange_congr hmutate]
  | ask name question =>
      rw [step, step]
      split
      · rename_i hmay
        have hanswer : stepwise.answer (s.store.set name) question =
            planned.answer (s.store.set name) question :=
          (h.store.set name).answer_ok question (h.live hmay)
        rw [hanswer]
      · rfl
  | compare left right =>
      have hsame : stepwise.same (s.store.set left) (s.store.set right) =
          planned.same (s.store.set left) (s.store.set right) :=
        (h.store.set left).same_ok (h.store.set right)
      rw [step, step, hsame]
  | alter name alteration =>
      have hrevise : ∀ map, s.store.maps.value? name = some map →
          stepwise.revise map (alteration.revision s.store) =
            planned.revise map (alteration.revision s.store) :=
        fun map hmap => (h.store.maps name map hmap).revise_eq (h.store.revision alteration)
      rw [step, step, Shelf.tryChange_congr hrevise]
  | askMap name question =>
      obtain ⟨p, hp⟩ := h.store.map name
      have hanswer : stepwise.answerMap (s.store.map name) question =
          planned.answerMap (s.store.map name) question :=
        hp.answer_ok question
      rw [step, step, hanswer]
  | compareMaps left right =>
      obtain ⟨p, hp⟩ := h.store.map left
      obtain ⟨q, hq⟩ := h.store.map right
      have hsame : stepwise.sameMap (s.store.map left) (s.store.map right) =
          planned.sameMap (s.store.map left) (s.store.map right) :=
        hp.holds.sameMap_ok hq.holds
      rw [step, step, hsame]
  | difference side left right =>
      have hdifference : stepwise.difference side (s.store.map left) (s.store.map right) =
          planned.difference side (s.store.map left) (s.store.map right) :=
        WorthMap.Sound.difference_eq (h.store.map left) (h.store.map right) side
      rw [step, step, hdifference]
  | watch _ _ | take _ | buildMap _ _ | watchMap _ _ => rfl

/-- Work in one step stops only at a fault that the request admits. -/
theorem Sound.step_fault (h : s.Sound) {r : Request α} {stop : Stop}
    (hstop : s.step planned r = .error stop) :
    ∃ fault, stop = .fault fault ∧ r.Admits s.store fault := by
  cases r with
  | build name recipe =>
      rcases of_bind_eq_error hstop with hbuild | ⟨built, _, hdone⟩
      · obtain ⟨fault, hfault, rfl⟩ := exists_of_mapError_eq_error hbuild
        obtain ⟨lo, hi, rfl, hnot, rfl⟩ := Store.build_fault hfault
        exact ⟨_, rfl, hnot, rfl⟩
      · cases built with
        | ok s => cases hdone
        | error refusal => cases hdone
  | mutate name mutation =>
      rcases of_bind_eq_error hstop with hchange | ⟨_, _, hdone⟩
      · obtain ⟨_, _, hmutate⟩ := Shelf.exists_of_tryChange_eq_error hchange
        cases hmutate
      · cases hdone
  | ask name question =>
      rw [Session.step] at hstop
      split at hstop
      · cases hstop
      · cases hstop
  | alter name alteration =>
      rcases of_bind_eq_error hstop with hchange | ⟨_, _, hdone⟩
      · obtain ⟨map, hmap, hrevise⟩ := Shelf.exists_of_tryChange_eq_error hchange
        obtain ⟨fault, hfault, rfl⟩ := exists_of_mapError_eq_error hrevise
        exact ⟨fault, rfl, (h.store.maps name map hmap).revise_fault hfault⟩
      · cases hdone
  | difference side left right =>
      rcases of_bind_eq_error hstop with hdifference | ⟨_, _, hdone⟩
      · obtain ⟨fault, hfault, rfl⟩ := exists_of_mapError_eq_error hdifference
        exact ⟨fault, rfl, extremeDifference_fault hfault⟩
      · cases hdone
  | _ => cases hstop

/-- A request leaves a sound session. -/
theorem Sound.step (h : s.Sound) {r : Request α} {outcome : Outcome α}
    (hok : s.step planned r = .ok (after, outcome)) : after.Sound := by
  cases r with
  | build name recipe =>
      obtain ⟨built, hbuild, hresult⟩ := exists_of_bind_eq_ok hok
      cases built with
      | error refusal =>
          cases hresult
          exact h
      | ok placed =>
          cases hresult
          have hs : placed.Sound := h.store.build (of_mapError_eq_ok hbuild)
          refine h.keepOthers ⟨h.store.sets.place hs, h.store.maps⟩ ?_
          intro other hne
          rw [Store.set, Shelf.place, Shelf.value?_put, if_neg hne, Store.set]
  | mutate name mutation =>
      obtain ⟨⟨sets, trails⟩, hchange, hresult⟩ := exists_of_bind_eq_ok hok
      cases hresult
      have hsets : sets.All RangeSet.Sound := by
        apply h.store.sets.tryChange _ hchange
        intro s mutated changes hs hmutate
        have hmutated : (s.mutate mutation).1 = mutated := congrArg Prod.fst (Except.ok.inj hmutate)
        rw [← hmutated]
        exact hs.mutate mutation
      refine h.keepOthers ⟨hsets, h.store.maps⟩ ?_
      intro other hne
      rcases Shelf.tryChange_cases hchange other with hsame | ⟨hname, _⟩
      · rw [Store.set, hsame, Store.set]
      · exact absurd hname hne
  | ask name question =>
      rw [Session.step] at hok
      split at hok
      · rename_i hmay
        cases hok
        refine ⟨h.store, ?_⟩
        intro slot hslot
        rcases List.mem_append.mp hslot with hnew | hold
        · obtain ⟨i, hi, rfl⟩ := List.mem_map.mp hnew
          exact (h.store.set name).answer_live (h.live hmay) i hi
        · exact h.handed slot hold
      · cases hok
        exact h
  | watch name watch? =>
      cases hok
      refine h.keep ⟨h.store.sets.setWatch watch?, h.store.maps⟩ ?_
      intro other
      rw [Store.set, Shelf.value?_setWatch, Store.set]
  | buildMap name source? =>
      cases hok
      have hsource : ((source?.map s.store.map).getD WorthMap.empty).Sound := by
        cases source? with
        | none => exact WorthMap.sound_empty
        | some source => exact h.store.map source
      exact h.keep ⟨h.store.sets, h.store.maps.place hsource⟩ fun other => rfl
  | alter name alteration =>
      obtain ⟨⟨maps, trails⟩, hchange, hresult⟩ := exists_of_bind_eq_ok hok
      cases hresult
      have hmaps : maps.All WorthMap.Sound := by
        apply h.store.maps.tryChange _ hchange
        intro m revised changes hm hrevise
        exact (hm.revise (of_mapError_eq_ok hrevise)).1
      exact h.keep ⟨h.store.sets, hmaps⟩ fun other => rfl
  | difference side left right =>
      obtain ⟨_, _, hresult⟩ := exists_of_bind_eq_ok hok
      cases hresult
      exact h
  | watchMap name watch? =>
      cases hok
      exact h.keep ⟨h.store.sets, h.store.maps.setWatch watch?⟩ fun other => rfl
  | take trail =>
      cases hok
      exact h.keep ⟨h.store.sets, h.store.maps⟩ fun other => rfl
  | compare _ _ | askMap _ _ | compareMaps _ _ =>
      cases hok
      exact h

/-! ### Many requests -/

omit [Scale α] [ToString α] in
theorem run_cons_of_ok {w : Workings α} {r : Request α} {outcome : Outcome α}
    (hstep : s.step w r = .ok (after, outcome)) (rest : List (Request α)) :
    s.run w (r :: rest) =
      (after.run w rest).map fun (final, outcomes) => (final, outcome :: outcomes) := by
  rw [run, hstep]
  simp only [ok_bind]
  cases after.run w rest <;> rfl

/-- The requests come to a fault at one of them, which admits it. Those before it were all granted. -/
def FaultsAt (w : Workings α) (s : Session α) (requests : List (Request α)) (fault : Fault) : Prop :=
  ∃ front r back before outcomes, requests = front ++ r :: back ∧
    s.run w front = .ok (before, outcomes) ∧ before.step w r = .error (.fault fault) ∧
    r.Admits before.store fault

/-- Both ways of working do the same for all requests. -/
theorem Sound.run_eq (h : s.Sound) (requests : List (Request α)) :
    s.run stepwise requests = s.run planned requests := by
  induction requests generalizing s with
  | nil => rfl
  | cons r rest ih =>
      have hstep := h.step_eq r
      cases hplanned : s.step planned r with
      | error stop => rw [run, run, hstep, hplanned, error_bind, error_bind]
      | ok result =>
          obtain ⟨after, outcome⟩ := result
          rw [run_cons_of_ok (hstep.trans hplanned), run_cons_of_ok hplanned, ih (h.step hplanned)]

/-- A session that works access by access stops only at a fault. -/
theorem Sound.run_fault (h : s.Sound) {requests : List (Request α)} {stop : Stop}
    (hstop : s.run stepwise requests = .error stop) :
    ∃ fault, stop = .fault fault ∧ s.FaultsAt stepwise requests fault := by
  induction requests generalizing s with
  | nil => cases hstop
  | cons r rest ih =>
      rcases of_bind_eq_error hstop with hstep | ⟨⟨after, outcome⟩, hstep, hmore⟩
      · obtain ⟨fault, rfl, hadmits⟩ := h.step_fault ((h.step_eq r).symm.trans hstep)
        exact ⟨fault, rfl, [], r, rest, s, [], rfl, rfl, hstep, hadmits⟩
      · have hafter : after.Sound := h.step ((h.step_eq r).symm.trans hstep)
        rcases of_bind_eq_error hmore with hrest | ⟨_, _, hdone⟩
        · obtain ⟨fault, rfl, front, last, back, before, outcomes, rfl, hfront, hlast, hadmits⟩ :=
            ih hafter hrest
          refine ⟨fault, rfl, r :: front, last, back, before, outcome :: outcomes, rfl, ?_, hlast,
            hadmits⟩
          rw [run_cons_of_ok hstep, hfront]
          rfl
        · cases hdone

/-- Whatever is requested, in whatever order, work access by access comes to what work in one step comes
to. No slot and no worth is missing where one is accessed, no slot is given back that should be the head
or the tail and is not, the count of the ranges does not go below zero, and no loop goes on for longer
than there are slots. Either all requests are granted, refused or answered, or the session stops at a
fault that the request admits: bounds that are not in order, where a set has to be built from them, or a
sum, a negation or a difference that is no worth. -/
theorem only_faults_stop (requests : List (Request α)) :
    empty.run stepwise requests = empty.run planned requests ∧
      ((∃ final outcomes, empty.run stepwise requests = .ok (final, outcomes)) ∨
        ∃ fault, empty.run stepwise requests = .error (.fault fault) ∧
          empty.FaultsAt stepwise requests fault) := by
  refine ⟨sound_empty.run_eq requests, ?_⟩
  cases hrun : (empty : Session α).run stepwise requests with
  | ok result => exact .inl ⟨result.1, result.2, rfl⟩
  | error stop =>
      obtain ⟨fault, rfl, hfaults⟩ := sound_empty.run_fault hrun
      exact .inr ⟨fault, rfl, hfaults⟩

/-- The greatest worth is added, and then there is no room for one more. -/
example : ((empty : Session Octet).run stepwise
    [.buildMap "loads" none,
      .alter "loads" (.adjust (.add (.ofInt 0) (.ofInt 5) (.ofInt 2147483647))),
      .alter "loads" (.adjust (.add (.ofInt 3) (.ofInt 4) (.ofInt 1)))]).map (·.2.length) =
    .error (.fault (.sum (.ofInt 2147483647) (.ofInt 1))) := by
  decide +kernel

end Session

end RangeSets
