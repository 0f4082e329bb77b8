import Mathlib.Data.List.Nodup
import WakeMyPc.Foundations.Guarded

/-!
# Threads that share a guarded value

Threads run programs with locks in any order.  The value they share is part of a larger
state, which operations without the lock may change elsewhere.

Main results:

- Definition `lockAnswer`: the answers that a thread with locks gets.
- Theorem `Matches.perform`: a step of a thread with locks is a step of the thread that it
  stands for, or changes nothing of what that thread sees.
- Theorem `Matches.acts`: a thread that has the lock can always go on.
-/

namespace Foundations

/-- A system of threads that share a value: the operations about the value, where it is
in the state, and the answers to all operations. -/
structure SharedValue (Op : Type) (Ans : Op → Type) (κ S W : Type) where
  touches : (o : Op) → Option (S → Ans o × S)
  value : W → Option S
  setValue : W → S → W
  answer : κ → ((o : Op) → Ans o) → W → (o : Op) → Option (Ans o × W)
  value_setValue : ∀ {w s} s', value w = some s → value (setValue w s') = some s'
  setValue_value : ∀ {w s}, value w = some s → setValue w s = w
  setValue_setValue : ∀ w s s', setValue (setValue w s) s' = setValue w s'
  answer_touches : ∀ {o f} kind outside {w s}, touches o = some f → value w = some s →
    answer kind outside w o = some ((f s).1, setValue w (f s).2)
  answer_setValue : ∀ {o} kind outside {w s} s', touches o = none → value w = some s →
    answer kind outside (setValue w s') o =
      (answer kind outside w o).map fun x => (x.1, setValue x.2 s')
  value_answer : ∀ {o kind outside w r w'}, touches o = none →
    answer kind outside w o = some (r, w') → value w' = value w
  answer_isSome : ∀ {o} kind outside w, touches o = none → (answer kind outside w o).isSome

/-! ## The lock, request by request -/

namespace LockState

variable {l : LockState} {i j : ℕ} {a b : Access}

/-- The thread holds the lock. -/
def holds (l : LockState) (i : ℕ) : Bool :=
  l.holders.any fun x => x.1 == i

theorem holds_of_mem (h : (i, a) ∈ l.holders) : l.holds i = true :=
  List.any_eq_true.mpr ⟨(i, a), h, beq_self_eq_true i⟩

theorem mem_owners : i ∈ l.owners ↔ (∃ a, (i, a) ∈ l.holders) ∨ ∃ a, (i, a) ∈ l.waiting := by
  simp [owners]

theorem owners_request : (l.request i a).owners = l.owners ++ [i] := by
  simp [owners, request]

theorem owners_grant (h : (i, a) ∈ l.waiting) : (l.grant i a).owners.Perm l.owners := by
  have hwaiting : ((i, a) :: l.waiting.erase (i, a)).Perm l.waiting :=
    (List.perm_cons_erase h).symm
  simpa [owners, grant] using (hwaiting.append_left l.holders).map Prod.fst

theorem owners_release : (l.release i).owners.Sublist l.owners :=
  (List.filter_sublist.append (List.Sublist.refl _)).map Prod.fst

theorem not_mem_owners_release (hnodup : l.owners.Nodup) (h : (i, a) ∈ l.holders) :
    i ∉ (l.release i).owners := by
  intro hmem
  rcases mem_owners.mp hmem with ⟨b, hb⟩ | ⟨b, hb⟩
  · simp [release] at hb
  · rw [owners, List.map_append, List.nodup_append] at hnodup
    exact hnodup.2.2 i (List.mem_map.mpr ⟨(i, a), h, rfl⟩) i
      (List.mem_map.mpr ⟨(i, b), hb, rfl⟩) rfl

/-- What a thread has to do with the lock does not change. -/
structure Unmoved (l l' : LockState) (j : ℕ) : Prop where
  holders : ∀ {a}, (j, a) ∈ l.holders → (j, a) ∈ l'.holders
  waiting : ∀ {a}, (j, a) ∈ l.waiting → (j, a) ∈ l'.waiting
  owners : j ∉ l.owners → j ∉ l'.owners

theorem unmoved_request (hij : j ≠ i) : Unmoved l (l.request i a) j where
  holders h := h
  waiting h := List.mem_append_left _ h
  owners h := by
    rw [owners_request, List.mem_append, List.mem_singleton]
    exact not_or.mpr ⟨h, hij⟩

theorem unmoved_grant (h : (i, a) ∈ l.waiting) (hij : j ≠ i) : Unmoved l (l.grant i a) j where
  holders hj := List.mem_append_left _ hj
  waiting hj := by
    refine (List.mem_erase_of_ne ?_).mpr hj
    exact fun heq => hij (congrArg Prod.fst heq)
  owners hj := fun hmem => hj ((owners_grant h).mem_iff.mp hmem)

theorem unmoved_release (hij : j ≠ i) : Unmoved l (l.release i) j where
  holders hj := List.mem_filter.mpr ⟨hj, bne_iff_ne.mpr hij⟩
  waiting hj := hj
  owners hj := fun hmem => hj (owners_release.subset hmem)

theorem unmoved_refl : Unmoved l l j where
  holders h := h
  waiting h := h
  owners h := h

end LockState

section Runs

variable {Op S κ W : Type} {Ans : Op → Type} (sh : SharedValue Op Ans κ S W)
variable (policy : LockPolicy)

/-- A thread with locks. -/
abbrev GuardThread (Ans : Op → Type) (S κ : Type) := Thread (GuardOp Op S) (GuardAns Ans S) κ

/-- The answer to thread `i`.  A lock is there only while its value is; what the thread does
with the value it does as a holder, and other operations go past the lock. -/
def lockAnswer (i : ℕ) (kind : κ) (outside : (o : Op) → Ans o) (x : W × LockState) :
    (o : GuardOp Op S) → Option (GuardAns Ans S o × (W × LockState))
  | .request a => if (sh.value x.1).isSome then some ((), (x.1, x.2.request i a)) else none
  | .acquire a => if policy.grants x.2 i a then some ((), (x.1, x.2.grant i a)) else none
  | .release => if x.2.holds i then some ((), (x.1, x.2.release i)) else none
  | .get => if x.2.holds i then (sh.value x.1).map fun s => (s, x) else none
  | .put s =>
      if (i, Access.exclusive) ∈ x.2.holders then some ((), (sh.setValue x.1 s, x.2)) else none
  | .op o =>
      if (sh.touches o).isNone then
        (sh.answer kind outside x.1 o).map fun result => (result.1, (result.2, x.2))
      else none

/-- What a thread with locks did apart from the value. -/
def outsideEvents (events : List (Event (GuardOp Op S) (GuardAns Ans S))) : List (Event Op Ans) :=
  events.filterMap fun
    | ⟨.op o, r⟩ => some ⟨o, r⟩
    | _ => none

/-- What a thread did apart from the value. -/
def otherEvents (events : List (Event Op Ans)) : List (Event Op Ans) :=
  events.filter fun e => (sh.touches e.op).isNone

/-! ## Corresponding states -/

/-- A thread with locks is as far as the thread that it stands for. -/
inductive Corresponds (l : LockState) (w v : W) (i : ℕ) (p : GuardProg Ans S Unit)
    (q : Prog Op Ans Unit) : Prop where
  | outside (hout : i ∉ l.owners) (hsim : Sim sh.touches .outside p q)
  | queued {a : Access} (hwaits : (i, a) ∈ l.waiting) (hsim : Sim sh.touches (.queued a) p q)
  | entered (hholds : (i, Access.shared) ∈ l.holders) (hsim : Sim sh.touches .entered p q)
  | reading {s : S} (hholds : (i, Access.shared) ∈ l.holders) (hvalue : sh.value v = some s)
      (hsim : Sim sh.touches (.reading s) p q)
  | writing {o : Op} {f : S → Ans o × S} {s s' : S} {rest : GuardProg Ans S Unit}
      {k : Ans o → Prog Op Ans Unit} (hholds : (i, Access.exclusive) ∈ l.holders)
      (hvalue : sh.value v = some s) (hnow : sh.value w = some s')
      (htouches : sh.touches o = some f) (hq : q = .call o k)
      (hsolo : solo p s' = some (rest, (f s).2)) (hrest : Sim sh.touches .outside rest (k (f s).1))

/-- While nobody changes the value the states are the same; else they agree up to the
value. -/
inductive SameWorlds (l : LockState) (w v : W) : Prop where
  | same (hshared : ∀ x ∈ l.holders, x.2 = Access.shared) (heq : w = v)
  | changing {i : ℕ} {s s' : S} (hholder : l.holders = [(i, Access.exclusive)])
      (hvalue : sh.value v = some s) (heq : w = sh.setValue v s')

/-- Threads with locks are as far as the threads that they stand for. -/
structure Matches (l : LockState) (w : W) (ts : List (GuardThread Ans S κ)) (v : W)
    (us : List (Thread Op Ans κ)) : Prop where
  owners : l.owners.Nodup
  present : ∀ i ∈ l.owners, i < ts.length ∧ (sh.value v).isSome
  worlds : SameWorlds sh l w v
  length : ts.length = us.length
  threads : ∀ {i t u}, ts[i]? = some t → us[i]? = some u → t.kind = u.kind ∧
    outsideEvents t.done = otherEvents sh u.done ∧ Corresponds sh l w v i t.rest u.rest

variable {sh} {policy}

/-- A thread that does not move, and whose view of the value does not change, stays where
it is. -/
theorem Corresponds.unmoved {l l' : LockState} {w w' v v' : W} {j : ℕ} {p : GuardProg Ans S Unit}
    {q : Prog Op Ans Unit} (h : Corresponds sh l w v j p q) (hlock : LockState.Unmoved l l' j)
    (hvalues : l.holds j = true → sh.value w' = sh.value w ∧ sh.value v' = sh.value v) :
    Corresponds sh l' w' v' j p q := by
  cases h with
  | outside hout hsim => exact .outside (hlock.owners hout) hsim
  | queued hwaits hsim => exact .queued (hlock.waiting hwaits) hsim
  | entered hholds hsim => exact .entered (hlock.holders hholds) hsim
  | reading hholds hvalue hsim =>
      obtain ⟨-, hv⟩ := hvalues (LockState.holds_of_mem hholds)
      exact .reading (hlock.holders hholds) (hv.trans hvalue) hsim
  | writing hholds hvalue hnow htouches hq hsolo hrest =>
      obtain ⟨hw, hv⟩ := hvalues (LockState.holds_of_mem hholds)
      exact .writing (hlock.holders hholds) (hv.trans hvalue) (hw.trans hnow) htouches hq hsolo
        hrest

/-- One thread moves and the thread that it stands for does not. -/
theorem Matches.set_left {l l' : LockState} {w w' v : W} {ts : List (GuardThread Ans S κ)}
    {us : List (Thread Op Ans κ)} {i : ℕ} {t t' : GuardThread Ans S κ} {u : Thread Op Ans κ}
    (h : Matches sh l w ts v us) (ht : ts[i]? = some t) (hu : us[i]? = some u)
    (howners : l'.owners.Nodup) (hpresent : ∀ j ∈ l'.owners, j < ts.length ∧ (sh.value v).isSome)
    (hworlds : SameWorlds sh l' w' v)
    (hothers : ∀ j, j ≠ i → LockState.Unmoved l l' j ∧
      (l.holds j = true → sh.value w' = sh.value w))
    (hkind : t'.kind = t.kind) (hdone : outsideEvents t'.done = outsideEvents t.done)
    (hcorr : Corresponds sh l' w' v i t'.rest u.rest) : Matches sh l' w' (ts.set i t') v us where
  owners := howners
  present := by simpa only [List.length_set] using hpresent
  worlds := hworlds
  length := by rw [List.length_set, h.length]
  threads := by
    intro j t₁ u₁ ht₁ hu₁
    rcases getElem?_set_cases ht₁ with ⟨rfl, rfl⟩ | ⟨hij, ht₁⟩
    · obtain rfl : u = u₁ := Option.some.inj (hu.symm.trans hu₁)
      obtain ⟨hk, hd, -⟩ := h.threads ht hu
      exact ⟨hkind.trans hk, hdone.trans hd, hcorr⟩
    · obtain ⟨hk, hd, hc⟩ := h.threads ht₁ hu₁
      obtain ⟨hlock, hvalue⟩ := hothers j hij
      exact ⟨hk, hd, hc.unmoved hlock fun hj => ⟨hvalue hj, rfl⟩⟩

/-- One thread and the thread that it stands for move. -/
theorem Matches.set_both {l l' : LockState} {w w' v v' : W} {ts : List (GuardThread Ans S κ)}
    {us : List (Thread Op Ans κ)} {i : ℕ} {t t' : GuardThread Ans S κ} {u u' : Thread Op Ans κ}
    (h : Matches sh l w ts v us) (ht : ts[i]? = some t) (hu : us[i]? = some u)
    (howners : l'.owners.Nodup) (hpresent : ∀ j ∈ l'.owners, j < ts.length ∧ (sh.value v').isSome)
    (hworlds : SameWorlds sh l' w' v')
    (hothers : ∀ j, j ≠ i → LockState.Unmoved l l' j ∧
      (l.holds j = true → sh.value w' = sh.value w ∧ sh.value v' = sh.value v))
    (hkind : t'.kind = t.kind ∧ u'.kind = u.kind)
    (hdone : outsideEvents t.done = otherEvents sh u.done →
      outsideEvents t'.done = otherEvents sh u'.done)
    (hcorr : Corresponds sh l' w' v' i t'.rest u'.rest) :
    Matches sh l' w' (ts.set i t') v' (us.set i u') where
  owners := howners
  present := by simpa only [List.length_set] using hpresent
  worlds := hworlds
  length := by rw [List.length_set, List.length_set, h.length]
  threads := by
    intro j t₁ u₁ ht₁ hu₁
    obtain ⟨hk, hd, -⟩ := h.threads ht hu
    rcases getElem?_set_cases ht₁ with ⟨rfl, rfl⟩ | ⟨hij, ht₁⟩
    · rcases getElem?_set_cases hu₁ with ⟨-, rfl⟩ | ⟨hne, -⟩
      · exact ⟨hkind.1.trans (hk.trans hkind.2.symm), hdone hd, hcorr⟩
      · exact absurd rfl hne
    · rcases getElem?_set_cases hu₁ with ⟨heq, -⟩ | ⟨-, hu₁⟩
      · exact absurd heq hij
      · obtain ⟨hk, hd, hc⟩ := h.threads ht₁ hu₁
        obtain ⟨hlock, hvalues⟩ := hothers j hij
        exact ⟨hk, hd, hc.unmoved hlock hvalues⟩

/-! ## What a corresponding thread can do next -/

section Next

variable {l : LockState} {w v : W} {i : ℕ} {q : Prog Op Ans Unit}

/-- A thread that asks for the lock has nothing to do with it yet. -/
theorem Corresponds.request {a : Access} {k : Unit → GuardProg Ans S Unit}
    (h : Corresponds sh l w v i (.call (.request a) k) q) :
    i ∉ l.owners ∧ Sim sh.touches (.queued a) (k ()) q := by
  cases h with
  | outside hout hsim =>
      cases hsim with
      | request hrest => exact ⟨hout, hrest⟩
  | queued _ hsim => cases hsim
  | entered _ hsim => cases hsim
  | reading _ _ hsim => cases hsim
  | writing _ _ _ _ _ hsolo _ => cases hsolo

/-- A thread that gets the lock has waited for it. -/
theorem Corresponds.acquire {a : Access} {k : Unit → GuardProg Ans S Unit}
    (h : Corresponds sh l w v i (.call (.acquire a) k) q) :
    (i, a) ∈ l.waiting ∧ Sim sh.touches (.queued a) (.call (.acquire a) k) q := by
  cases h with
  | outside _ hsim => cases hsim
  | queued hwaits hsim =>
      cases hsim with
      | enter hrest => exact ⟨hwaits, .enter hrest⟩
      | write htouches hsolo hrest => exact ⟨hwaits, .write htouches hsolo hrest⟩
  | entered _ hsim => cases hsim
  | reading _ _ hsim => cases hsim
  | writing _ _ _ _ _ hsolo _ => cases hsolo

/-- A thread that looks at the value does so first, or again, or is about to change it. -/
theorem Corresponds.get {k : S → GuardProg Ans S Unit}
    (h : Corresponds sh l w v i (.call .get k) q) :
    ((i, Access.shared) ∈ l.holders ∧ Sim sh.touches .entered (.call .get k) q) ∨
    (∃ s, (i, Access.shared) ∈ l.holders ∧ sh.value v = some s ∧
      Sim sh.touches (.reading s) (k s) q) ∨
    (i, Access.exclusive) ∈ l.holders ∧
      ∀ s, sh.value w = some s → Corresponds sh l w v i (k s) q := by
  cases h with
  | outside _ hsim => cases hsim
  | queued _ hsim => cases hsim
  | entered hholds hsim => exact .inl ⟨hholds, hsim⟩
  | @reading s hholds hvalue hsim =>
      cases hsim with
      | lookAgain hrest => exact .inr (.inl ⟨s, hholds, hvalue, hrest⟩)
  | writing hholds hvalue hnow htouches hq hsolo hrest =>
      refine .inr (.inr ⟨hholds, fun s hs => ?_⟩)
      obtain rfl := Option.some.inj (hnow.symm.trans hs)
      exact .writing hholds hvalue hnow htouches hq hsolo hrest

/-- A thread that sets the value goes on with what it has set. -/
theorem Corresponds.put {s : S} {k : Unit → GuardProg Ans S Unit} {w' : W}
    (h : Corresponds sh l w v i (.call (.put s) k) q) (hnow : sh.value w' = some s) :
    (i, Access.exclusive) ∈ l.holders ∧ Corresponds sh l w' v i (k ()) q := by
  cases h with
  | outside _ hsim => cases hsim
  | queued _ hsim => cases hsim
  | entered _ hsim => cases hsim
  | reading _ _ hsim => cases hsim
  | writing hholds hvalue _ htouches hq hsolo hrest =>
      exact ⟨hholds, .writing hholds hvalue hnow htouches hq hsolo hrest⟩

/-- A thread that gives the lock back has read, or is done with what it changed. -/
theorem Corresponds.release {k : Unit → GuardProg Ans S Unit}
    (h : Corresponds sh l w v i (.call .release k) q) :
    ((i, Access.shared) ∈ l.holders ∧ Sim sh.touches .outside (k ()) q) ∨
    (i, Access.exclusive) ∈ l.holders ∧ ∃ o f k' s, sh.touches o = some f ∧ q = .call o k' ∧
      sh.value v = some s ∧ sh.value w = some (f s).2 ∧
      Sim sh.touches .outside (k ()) (k' (f s).1) := by
  cases h with
  | outside _ hsim => cases hsim
  | queued _ hsim => cases hsim
  | entered _ hsim => cases hsim
  | reading hholds _ hsim =>
      cases hsim with
      | leave hrest => exact .inl ⟨hholds, hrest⟩
  | @writing o f s s' rest k' hholds hvalue hnow htouches hq hsolo hrest =>
      obtain ⟨rfl, rfl⟩ := Prod.mk.inj (Option.some.inj hsolo)
      exact .inr ⟨hholds, o, f, k', s, htouches, hq, hvalue, hnow, hrest⟩

/-- A thread does other things outside of the lock or as a reader, and so does the thread
that it stands for. -/
theorem Corresponds.op {o : Op} {k : Ans o → GuardProg Ans S Unit}
    (h : Corresponds sh l w v i (.call (.op o) k) q) :
    ∃ k', sh.touches o = none ∧ q = .call o k' ∧ ∀ r w' v',
      (l.holds i = true → sh.value v' = sh.value v) → Corresponds sh l w' v' i (k r) (k' r) := by
  cases h with
  | outside hout hsim =>
      cases hsim with
      | @op _ _ k' hother hrest =>
          exact ⟨k', hother, rfl, fun r w' v' _ => .outside hout (hrest r)⟩
  | queued _ hsim => cases hsim
  | entered _ hsim => cases hsim
  | reading hholds hvalue hsim =>
      cases hsim with
      | @opInside _ _ _ k' hother hrest =>
          refine ⟨k', hother, rfl, fun r w' v' hv => .reading hholds ?_ (hrest r)⟩
          exact (hv (LockState.holds_of_mem hholds)).trans hvalue
  | writing _ _ _ _ _ hsolo _ => cases hsolo

end Next

/-! ## Steps -/

section Worlds

variable {l : LockState} {w v : W} {i : ℕ}

/-- While somebody reads, nobody changes. -/
theorem SameWorlds.of_shared (h : SameWorlds sh l w v) (hi : (i, Access.shared) ∈ l.holders) :
    w = v ∧ ∀ x ∈ l.holders, x.2 = Access.shared := by
  cases h with
  | same hshared heq => exact ⟨heq, hshared⟩
  | changing hholder _ _ =>
      rw [hholder, List.mem_singleton] at hi
      cases hi

/-- One that changes the value is alone. -/
theorem SameWorlds.of_exclusive (h : SameWorlds sh l w v)
    (hi : (i, Access.exclusive) ∈ l.holders) : l.holders = [(i, Access.exclusive)] ∧
      ∃ s s', sh.value v = some s ∧ w = sh.setValue v s' := by
  cases h with
  | same hshared _ => cases hshared _ hi
  | changing hholder hvalue heq =>
      rw [hholder, List.mem_singleton] at hi
      cases hi
      exact ⟨hholder, _, _, hvalue, heq⟩

theorem SameWorlds.value_isSome (h : SameWorlds sh l w v) :
    (sh.value w).isSome = (sh.value v).isSome := by
  cases h with
  | same _ heq => rw [heq]
  | changing _ hvalue heq => rw [heq, sh.value_setValue _ hvalue, hvalue]; rfl

/-- What a thread does apart from the value keeps the states the same. -/
theorem SameWorlds.op (h : SameWorlds sh l w v) {o : Op} (hother : sh.touches o = none) {kind : κ}
    {outside : (o : Op) → Ans o} {r : Ans o} {w' : W}
    (hanswer : sh.answer kind outside w o = some (r, w')) :
    ∃ v', sh.answer kind outside v o = some (r, v') ∧ SameWorlds sh l w' v' := by
  cases h with
  | same hshared heq => exact ⟨w', heq ▸ hanswer, .same hshared rfl⟩
  | @changing j s s' hholder hvalue heq =>
      rw [heq, sh.answer_setValue kind outside s' hother hvalue] at hanswer
      obtain ⟨⟨r', v'⟩, hv, heq'⟩ := Option.map_eq_some_iff.mp hanswer
      cases heq'
      exact ⟨v', hv, .changing hholder ((sh.value_answer hother hv).trans hvalue) rfl⟩

end Worlds

section Perform

variable {l : LockState} {w v : W} {ts : List (GuardThread Ans S κ)} {us : List (Thread Op Ans κ)}
variable {i : ℕ} {t : GuardThread Ans S κ} {u : Thread Op Ans κ}

/-- A thread after one more operation. -/
def Thread.advance {Op κ : Type} {Ans : Op → Type} (t : Thread Op Ans κ) (e : Event Op Ans)
    (rest : Prog Op Ans Unit) : Thread Op Ans κ :=
  { t with done := t.done ++ [e], rest }

theorem outsideEvents_concat (events : List (Event (GuardOp Op S) (GuardAns Ans S)))
    (e : Event (GuardOp Op S) (GuardAns Ans S)) :
    outsideEvents (events ++ [e]) = outsideEvents events ++ outsideEvents [e] :=
  List.filterMap_append

theorem otherEvents_concat (events : List (Event Op Ans)) (e : Event Op Ans) :
    otherEvents sh (events ++ [e]) = otherEvents sh events ++ otherEvents sh [e] :=
  List.filter_append _ _

/-- To ask for the lock changes nothing that the other system sees. -/
theorem Matches.request (h : Matches sh l w ts v us) (ht : ts[i]? = some t) (hu : us[i]? = some u)
    {a : Access} {k : Unit → GuardProg Ans S Unit} (hrest : t.rest = .call (.request a) k)
    (hvalue : (sh.value w).isSome) :
    Matches sh (l.request i a) w (ts.set i (t.advance ⟨.request a, ()⟩ (k ()))) v us := by
  obtain ⟨-, -, hc⟩ := h.threads ht hu
  rw [hrest] at hc
  obtain ⟨hout, hsim⟩ := hc.request
  have hlength : i < ts.length := (List.getElem?_eq_some_iff.mp ht).1
  have hpresent : (sh.value v).isSome := h.worlds.value_isSome ▸ hvalue
  apply h.set_left ht hu
  · rw [LockState.owners_request]
    exact List.Nodup.append h.owners (List.nodup_singleton i) (List.disjoint_singleton.mpr hout)
  · intro j hj
    rw [LockState.owners_request, List.mem_append, List.mem_singleton] at hj
    rcases hj with hold | rfl
    · exact h.present j hold
    · exact ⟨hlength, hpresent⟩
  · cases h.worlds with
    | same hshared heq => exact .same hshared heq
    | changing hholder hv heq => exact .changing hholder hv heq
  · exact fun j hj => ⟨LockState.unmoved_request hj, fun _ => rfl⟩
  · rfl
  · exact (outsideEvents_concat _ _).trans (List.append_nil _)
  · exact .queued (List.mem_append_right _ List.mem_cons_self) hsim

/-- Nor does to get the lock: a reader has not looked yet, and a writer has changed
nothing. -/
theorem Matches.acquire (h : Matches sh l w ts v us) (ht : ts[i]? = some t) (hu : us[i]? = some u)
    {a : Access} {k : Unit → GuardProg Ans S Unit} (hrest : t.rest = .call (.acquire a) k)
    (hadmits : l.Admits a) :
    Matches sh (l.grant i a) w (ts.set i (t.advance ⟨.acquire a, ()⟩ (k ()))) v us := by
  obtain ⟨-, -, hc⟩ := h.threads ht hu
  rw [hrest] at hc
  obtain ⟨hwaits, hsim⟩ := hc.acquire
  have hperm := LockState.owners_grant hwaits
  have hpresent : (sh.value v).isSome :=
    (h.present i (LockState.mem_owners.mpr (.inr ⟨a, hwaits⟩))).2
  obtain ⟨s, hs⟩ := Option.isSome_iff_exists.mp hpresent
  have hsame : (∀ x ∈ l.holders, x.2 = Access.shared) → w = v := by
    intro hshared
    cases h.worlds with
    | same _ heq => exact heq
    | @changing j _ _ hholder _ _ => cases hshared (j, Access.exclusive) (by simp [hholder])
  have hin : (i, a) ∈ (l.grant i a).holders := List.mem_append_right _ List.mem_cons_self
  apply h.set_left ht hu
  · exact hperm.nodup_iff.mpr h.owners
  · exact fun j hj => h.present j (hperm.mem_iff.mp hj)
  · cases a with
    | shared =>
        refine .same ?_ (hsame hadmits)
        intro x hx
        rcases List.mem_append.mp hx with hold | hnew
        · exact hadmits x hold
        · rw [List.mem_singleton.mp hnew]
    | exclusive =>
        have hnobody : l.holders = [] := hadmits
        have heq : w = sh.setValue v s := by
          rw [sh.setValue_value hs]
          exact hsame (by simp [hnobody])
        refine .changing (i := i) ?_ hs heq
        rw [LockState.grant, hnobody]
        rfl
  · exact fun j hj => ⟨LockState.unmoved_grant hwaits hj, fun _ => rfl⟩
  · rfl
  · exact (outsideEvents_concat _ _).trans (List.append_nil _)
  · generalize hq : u.rest = q at hsim ⊢
    cases hsim with
    | enter hsim => exact .entered hin hsim
    | write htouches hsolo hsim =>
        have hw : w = v := hsame (by rw [show l.holders = [] from hadmits]; simp)
        exact .writing hin hs (hw ▸ hs) htouches rfl (hsolo s) (hsim s)

/-- To give the lock back is what the other system sees of a change. -/
theorem Matches.release (h : Matches sh l w ts v us) (ht : ts[i]? = some t) (hu : us[i]? = some u)
    (outside : (o : Op) → Ans o) {k : Unit → GuardProg Ans S Unit}
    (hrest : t.rest = .call .release k) :
    Matches sh (l.release i) w (ts.set i (t.advance ⟨.release, ()⟩ (k ()))) v us ∨
    ∃ e u' v', u.perform (sh.answer u.kind outside v) = some (e, u', v') ∧
      Matches sh (l.release i) w (ts.set i (t.advance ⟨.release, ()⟩ (k ()))) v' (us.set i u') := by
  obtain ⟨-, -, hc⟩ := h.threads ht hu
  rw [hrest] at hc
  have hnodup : (l.release i).owners.Nodup := h.owners.sublist LockState.owners_release
  have hevents : outsideEvents (t.done ++ [⟨.release, ()⟩]) = outsideEvents t.done :=
    (outsideEvents_concat _ _).trans (List.append_nil _)
  rcases hc.release with ⟨hholds, hsim⟩ | ⟨hholds, o, f, k', s, htouches, hq, hv, hw, hsim⟩
  · obtain ⟨heq, hshared⟩ := h.worlds.of_shared hholds
    refine .inl (h.set_left ht hu hnodup ?_ ?_ ?_ rfl hevents ?_)
    · exact fun j hj => h.present j (LockState.owners_release.subset hj)
    · exact .same (fun x hx => hshared x (List.mem_filter.mp hx).1) heq
    · exact fun j hj => ⟨LockState.unmoved_release hj, fun _ => rfl⟩
    · exact .outside (LockState.not_mem_owners_release h.owners hholds) hsim
  · obtain ⟨hholder, s₀, s', hs₀, heq⟩ := h.worlds.of_exclusive hholds
    have hs' : s' = (f s).2 := by
      rw [heq, sh.value_setValue _ hs₀] at hw
      exact Option.some.inj hw
    have hperform : u.perform (sh.answer u.kind outside v) =
        some (⟨o, (f s).1⟩, u.advance ⟨o, (f s).1⟩ (k' (f s).1), w) := by
      rw [Thread.perform, hq]
      simp only [sh.answer_touches u.kind outside htouches hv, Option.map_some, heq, hs']
      rfl
    refine .inr ⟨_, _, _, hperform, h.set_both ht hu hnodup ?_ ?_ ?_ ⟨rfl, rfl⟩ ?_ ?_⟩
    · intro j hj
      rw [hw]
      exact ⟨(h.present j (LockState.owners_release.subset hj)).1, rfl⟩
    · refine .same ?_ rfl
      simp [LockState.release, hholder]
    · refine fun j hj => ⟨LockState.unmoved_release hj, fun hhold => ?_⟩
      simp only [LockState.holds, hholder, List.any_cons, List.any_nil, Bool.or_false,
        beq_iff_eq] at hhold
      exact absurd hhold.symm hj
    · intro hsame
      refine hevents.trans (hsame.trans ?_)
      rw [Thread.advance, otherEvents_concat, otherEvents, otherEvents, List.filter_singleton,
        htouches]
      simp
    · exact .outside (LockState.not_mem_owners_release h.owners hholds) hsim

/-- The first look of a reader is what the other system sees of it. -/
theorem Matches.get (h : Matches sh l w ts v us) (ht : ts[i]? = some t) (hu : us[i]? = some u)
    (outside : (o : Op) → Ans o) {k : S → GuardProg Ans S Unit} {s : S}
    (hrest : t.rest = .call .get k) (hnow : sh.value w = some s) :
    Matches sh l w (ts.set i (t.advance ⟨.get, s⟩ (k s))) v us ∨
    ∃ e u' v', u.perform (sh.answer u.kind outside v) = some (e, u', v') ∧
      Matches sh l w (ts.set i (t.advance ⟨.get, s⟩ (k s))) v' (us.set i u') := by
  obtain ⟨-, -, hc⟩ := h.threads ht hu
  rw [hrest] at hc
  have hevents : outsideEvents (t.done ++ [⟨.get, s⟩]) = outsideEvents t.done :=
    (outsideEvents_concat _ _).trans (List.append_nil _)
  rcases hc.get with ⟨hholds, hsim⟩ | ⟨s₀, hholds, hv, hsim⟩ | ⟨-, hnext⟩
  · obtain ⟨rfl, -⟩ := h.worlds.of_shared hholds
    generalize hq : u.rest = q at hsim
    cases hsim with
    | @look o f _ k' htouches hsame hsim =>
        have hperform : u.perform (sh.answer u.kind outside w) =
            some (⟨o, (f s).1⟩, u.advance ⟨o, (f s).1⟩ (k' (f s).1), w) := by
          rw [Thread.perform, hq]
          simp only [sh.answer_touches u.kind outside htouches hnow, Option.map_some, hsame,
            sh.setValue_value hnow]
          rfl
        refine .inr ⟨_, _, _, hperform, h.set_both ht hu h.owners h.present h.worlds ?_ ⟨rfl, rfl⟩
          ?_ (.reading hholds hnow (hsim s))⟩
        · exact fun j hj => ⟨LockState.unmoved_refl, fun _ => ⟨rfl, rfl⟩⟩
        · intro hdone
          refine hevents.trans (hdone.trans ?_)
          rw [Thread.advance, otherEvents_concat, otherEvents, otherEvents, List.filter_singleton,
            htouches]
          simp
  · obtain ⟨rfl, -⟩ := h.worlds.of_shared hholds
    obtain rfl := Option.some.inj (hv.symm.trans hnow)
    refine .inl (h.set_left ht hu h.owners h.present h.worlds ?_ rfl hevents
      (.reading hholds hnow hsim))
    exact fun j hj => ⟨LockState.unmoved_refl, fun _ => rfl⟩
  · refine .inl (h.set_left ht hu h.owners h.present h.worlds ?_ rfl hevents (hnext s hnow))
    exact fun j hj => ⟨LockState.unmoved_refl, fun _ => rfl⟩

/-- A change under the lock is not seen yet. -/
theorem Matches.put (h : Matches sh l w ts v us) (ht : ts[i]? = some t) (hu : us[i]? = some u)
    {k : Unit → GuardProg Ans S Unit} {s : S} (hrest : t.rest = .call (.put s) k)
    (hholds : (i, Access.exclusive) ∈ l.holders) :
    Matches sh l (sh.setValue w s) (ts.set i (t.advance ⟨.put s, ()⟩ (k ()))) v us := by
  obtain ⟨-, -, hc⟩ := h.threads ht hu
  rw [hrest] at hc
  obtain ⟨hholder, s₀, s', hs₀, heq⟩ := h.worlds.of_exclusive hholds
  have hput : sh.setValue w s = sh.setValue v s := by rw [heq, sh.setValue_setValue]
  have hnow : sh.value (sh.setValue w s) = some s := by
    rw [hput]
    exact sh.value_setValue s hs₀
  obtain ⟨-, hnext⟩ := hc.put hnow
  refine h.set_left ht hu h.owners h.present (.changing hholder hs₀ hput) ?_ rfl ?_ hnext
  · refine fun j hj => ⟨LockState.unmoved_refl, fun hhold => ?_⟩
    simp only [LockState.holds, hholder, List.any_cons, List.any_nil, Bool.or_false,
      beq_iff_eq] at hhold
    exact absurd hhold.symm hj
  · exact (outsideEvents_concat _ _).trans (List.append_nil _)

/-- What a thread does apart from the value is what the other system does. -/
theorem Matches.op (h : Matches sh l w ts v us) (ht : ts[i]? = some t) (hu : us[i]? = some u)
    {outside : (o : Op) → Ans o} {o : Op} {k : Ans o → GuardProg Ans S Unit} {r : Ans o} {w' : W}
    (hrest : t.rest = .call (.op o) k) (hanswer : sh.answer t.kind outside w o = some (r, w')) :
    ∃ e u' v', u.perform (sh.answer u.kind outside v) = some (e, u', v') ∧
      Matches sh l w' (ts.set i (t.advance ⟨.op o, r⟩ (k r))) v' (us.set i u') := by
  obtain ⟨hkind, -, hc⟩ := h.threads ht hu
  rw [hrest] at hc
  obtain ⟨k', hother, hq, hnext⟩ := hc.op
  obtain ⟨v', hv, hworlds⟩ := h.worlds.op hother hanswer
  have hperform : u.perform (sh.answer u.kind outside v) =
      some (⟨o, r⟩, u.advance ⟨o, r⟩ (k' r), v') := by
    rw [hkind] at hv
    rw [Thread.perform, hq]
    simp only [hv, Option.map_some]
    rfl
  have hvalue : sh.value v' = sh.value v := sh.value_answer hother hv
  refine ⟨_, _, _, hperform, h.set_both ht hu h.owners ?_ hworlds ?_ ⟨rfl, rfl⟩ ?_
    (hnext r w' v' fun _ => hvalue)⟩
  · exact fun j hj => hvalue ▸ h.present j hj
  · exact fun j hj => ⟨LockState.unmoved_refl,
      fun _ => ⟨sh.value_answer hother hanswer, hvalue⟩⟩
  · intro hdone
    rw [Thread.advance, outsideEvents_concat, Thread.advance, otherEvents_concat, hdone]
    simp [outsideEvents, otherEvents, hother]

/-- A step of a thread with locks is a step of the thread that it stands for, or changes
nothing of what that thread sees. -/
theorem Matches.perform (h : Matches sh l w ts v us) (ht : ts[i]? = some t)
    (hu : us[i]? = some u) {outside : (o : Op) → Ans o}
    {e : Event (GuardOp Op S) (GuardAns Ans S)} {t' : GuardThread Ans S κ} {w' : W} {l' : LockState}
    (hstep : t.perform (lockAnswer sh policy i t.kind outside (w, l)) = some (e, t', (w', l'))) :
    Matches sh l' w' (ts.set i t') v us ∨
    ∃ e u' v', u.perform (sh.answer u.kind outside v) = some (e, u', v') ∧
      Matches sh l' w' (ts.set i t') v' (us.set i u') := by
  obtain ⟨k, hrest, hanswer, rfl⟩ := Thread.perform_eq_some hstep
  obtain ⟨o, r⟩ := e
  cases o with
  | request a =>
      obtain ⟨hvalue, heq⟩ := Option.ite_none_right_eq_some.mp hanswer
      cases heq
      exact .inl (h.request ht hu hrest hvalue)
  | acquire a =>
      obtain ⟨hgrants, heq⟩ := Option.ite_none_right_eq_some.mp hanswer
      cases heq
      exact .inl (h.acquire ht hu hrest (policy.admits hgrants))
  | release =>
      obtain ⟨-, heq⟩ := Option.ite_none_right_eq_some.mp hanswer
      cases heq
      exact h.release ht hu outside hrest
  | get =>
      obtain ⟨-, hmap⟩ := Option.ite_none_right_eq_some.mp hanswer
      obtain ⟨s, hnow, heq⟩ := Option.map_eq_some_iff.mp hmap
      cases heq
      exact h.get ht hu outside hrest hnow
  | put s =>
      obtain ⟨hholds, heq⟩ := Option.ite_none_right_eq_some.mp hanswer
      cases heq
      exact .inl (h.put ht hu hrest hholds)
  | op o =>
      obtain ⟨-, hmap⟩ := Option.ite_none_right_eq_some.mp hanswer
      obtain ⟨⟨r', w''⟩, hop, heq⟩ := Option.map_eq_some_iff.mp hmap
      cases heq
      exact .inr (h.op ht hu hrest hop)

/-- Only one that asks for the lock comes to have to do with it. -/
theorem lockAnswer_owners {kind : κ} {outside : (o : Op) → Ans o}
    {e : Event (GuardOp Op S) (GuardAns Ans S)} {w' : W} {l' : LockState}
    (hanswer : lockAnswer sh policy i kind outside (w, l) e.op = some (e.ans, (w', l'))) :
    ∀ j ∈ l'.owners, j ∈ l.owners ∨ (j = i ∧ ∃ a, e.op = .request a) := by
  intro j hj
  obtain ⟨o, r⟩ := e
  cases o with
  | request a =>
      obtain ⟨-, heq⟩ := Option.ite_none_right_eq_some.mp hanswer
      cases heq
      rw [LockState.owners_request, List.mem_append, List.mem_singleton] at hj
      exact hj.imp_right fun hj => ⟨hj, a, rfl⟩
  | acquire a =>
      obtain ⟨hgrants, heq⟩ := Option.ite_none_right_eq_some.mp hanswer
      cases heq
      exact .inl ((LockState.owners_grant (policy.waits hgrants)).mem_iff.mp hj)
  | release =>
      obtain ⟨-, heq⟩ := Option.ite_none_right_eq_some.mp hanswer
      cases heq
      exact .inl (LockState.owners_release.subset hj)
  | get =>
      obtain ⟨-, hmap⟩ := Option.ite_none_right_eq_some.mp hanswer
      obtain ⟨s, -, heq⟩ := Option.map_eq_some_iff.mp hmap
      cases heq
      exact .inl hj
  | put s =>
      obtain ⟨-, heq⟩ := Option.ite_none_right_eq_some.mp hanswer
      cases heq
      exact .inl hj
  | op o =>
      obtain ⟨-, hmap⟩ := Option.ite_none_right_eq_some.mp hanswer
      obtain ⟨x, -, heq⟩ := Option.map_eq_some_iff.mp hmap
      cases heq
      exact .inl hj

/-- No operation takes the value away. -/
theorem lockAnswer_value {kind : κ}
    {outside : (o : Op) → Ans o} {e : Event (GuardOp Op S) (GuardAns Ans S)} {w' : W}
    {l' : LockState}
    (hanswer : lockAnswer sh policy i kind outside (w, l) e.op = some (e.ans, (w', l')))
    (hvalue : (sh.value w).isSome) : (sh.value w').isSome := by
  obtain ⟨o, r⟩ := e
  cases o with
  | request a =>
      obtain ⟨-, heq⟩ := Option.ite_none_right_eq_some.mp hanswer
      cases heq
      exact hvalue
  | acquire a =>
      obtain ⟨-, heq⟩ := Option.ite_none_right_eq_some.mp hanswer
      cases heq
      exact hvalue
  | release =>
      obtain ⟨-, heq⟩ := Option.ite_none_right_eq_some.mp hanswer
      cases heq
      exact hvalue
  | get =>
      obtain ⟨-, hmap⟩ := Option.ite_none_right_eq_some.mp hanswer
      obtain ⟨s, -, heq⟩ := Option.map_eq_some_iff.mp hmap
      cases heq
      exact hvalue
  | put s =>
      obtain ⟨-, heq⟩ := Option.ite_none_right_eq_some.mp hanswer
      cases heq
      obtain ⟨s₀, hs₀⟩ := Option.isSome_iff_exists.mp hvalue
      rw [sh.value_setValue s hs₀]
      rfl
  | op o =>
      obtain ⟨hother, hmap⟩ := Option.ite_none_right_eq_some.mp hanswer
      obtain ⟨⟨r', w''⟩, hop, heq⟩ := Option.map_eq_some_iff.mp hmap
      cases heq
      rw [sh.value_answer (Option.isNone_iff_eq_none.mp hother) hop]
      exact hvalue

/-! ## Progress -/

/-- A thread acts when its next operation is answered. -/
theorem Thread.perform_isSome {Op κ W : Type} {Ans : Op → Type} {t : Thread Op Ans κ} {o : Op}
    {k : Ans o → Prog Op Ans Unit} (hrest : t.rest = .call o k)
    {answer : (o : Op) → Option (Ans o × W)} (hanswer : (answer o).isSome) :
    (t.perform answer).isSome := by
  rw [Thread.perform, hrest]
  exact (Option.isSome_map ..).trans hanswer

section Answers

variable {kind : κ} {outside : (o : Op) → Ans o}

theorem lockAnswer_request_isSome (a : Access) (hvalue : (sh.value w).isSome) :
    (lockAnswer sh policy i kind outside (w, l) (.request a)).isSome := by
  rw [lockAnswer, if_pos hvalue]
  rfl

theorem lockAnswer_get_isSome (hholds : l.holds i = true) (hvalue : (sh.value w).isSome) :
    (lockAnswer sh policy i kind outside (w, l) .get).isSome := by
  rw [lockAnswer, if_pos hholds]
  exact (Option.isSome_map ..).trans hvalue

theorem lockAnswer_release_isSome (hholds : l.holds i = true) :
    (lockAnswer sh policy i kind outside (w, l) .release).isSome := by
  rw [lockAnswer, if_pos hholds]
  rfl

theorem lockAnswer_put_isSome (s : S) (hholds : (i, Access.exclusive) ∈ l.holders) :
    (lockAnswer sh policy i kind outside (w, l) (.put s)).isSome := by
  rw [lockAnswer, if_pos hholds]
  rfl

theorem lockAnswer_op_isSome {o : Op} (hother : sh.touches o = none) :
    (lockAnswer sh policy i kind outside (w, l) (.op o)).isSome := by
  rw [lockAnswer, if_pos (by rw [hother]; rfl)]
  exact (Option.isSome_map ..).trans (sh.answer_isSome kind outside w hother)

theorem lockAnswer_acquire_isSome {a : Access} (hgrants : policy.grants l i a = true) :
    (lockAnswer sh policy i kind outside (w, l) (.acquire a)).isSome := by
  rw [lockAnswer, if_pos hgrants]
  rfl

end Answers

/-- A thread with locks has a thread that it stands for. -/
theorem Matches.exists_of_lt (h : Matches sh l w ts v us) (hi : i < ts.length) :
    ∃ t u, ts[i]? = some t ∧ us[i]? = some u ∧ Corresponds sh l w v i t.rest u.rest := by
  have hi' : i < us.length := h.length ▸ hi
  have ht : ts[i]? = some ts[i] := List.getElem?_eq_getElem hi
  have hu : us[i]? = some us[i] := List.getElem?_eq_getElem hi'
  obtain ⟨-, -, hc⟩ := h.threads ht hu
  exact ⟨_, _, ht, hu, hc⟩

/-- One that holds the lock does not wait for it. -/
theorem Matches.not_both (h : Matches sh l w ts v us) {a b : Access} (hholds : (i, a) ∈ l.holders)
    (hwaits : (i, b) ∈ l.waiting) : False := by
  have hnodup := h.owners
  rw [LockState.owners, List.map_append, List.nodup_append] at hnodup
  exact hnodup.2.2 i (List.mem_map.mpr ⟨(i, a), hholds, rfl⟩) i
    (List.mem_map.mpr ⟨(i, b), hwaits, rfl⟩) rfl

/-- A thread that has the lock can go on. -/
theorem Matches.holder_acts (h : Matches sh l w ts v us) {a : Access} (hi : (i, a) ∈ l.holders) :
    ∃ t, ts[i]? = some t ∧
      ∀ outside, (t.perform (lockAnswer sh policy i t.kind outside (w, l))).isSome := by
  have howner : i ∈ l.owners := LockState.mem_owners.mpr (.inl ⟨a, hi⟩)
  obtain ⟨hlt, hpresent⟩ := h.present i howner
  have hholds : l.holds i = true := LockState.holds_of_mem hi
  have hvalue : (sh.value w).isSome := h.worlds.value_isSome.trans hpresent
  obtain ⟨t, u, ht, -, hc⟩ := h.exists_of_lt hlt
  refine ⟨t, ht, fun outside => ?_⟩
  generalize hp : t.rest = p at hc
  generalize u.rest = q at hc
  cases hc with
  | outside hout _ => exact absurd howner hout
  | queued hwaits _ => exact (h.not_both hi hwaits).elim
  | entered _ hsim =>
      cases hsim with
      | look _ _ _ => exact Thread.perform_isSome hp (lockAnswer_get_isSome hholds hvalue)
  | reading _ _ hsim =>
      cases hsim with
      | lookAgain _ => exact Thread.perform_isSome hp (lockAnswer_get_isSome hholds hvalue)
      | opInside hother _ => exact Thread.perform_isSome hp (lockAnswer_op_isSome hother)
      | leave _ => exact Thread.perform_isSome hp (lockAnswer_release_isSome hholds)
  | writing hexclusive _ _ _ _ hsolo _ =>
      cases p with
      | ret a => cases hsolo
      | stall => cases hsolo
      | call o k =>
          cases o with
          | get => exact Thread.perform_isSome hp (lockAnswer_get_isSome hholds hvalue)
          | put s => exact Thread.perform_isSome hp (lockAnswer_put_isSome s hexclusive)
          | release => exact Thread.perform_isSome hp (lockAnswer_release_isSome hholds)
          | request a => cases hsolo
          | acquire a => cases hsolo
          | op o => cases hsolo

/-- A thread to which the lock can be granted can go on. -/
theorem Matches.waiter_acts (h : Matches sh l w ts v us) {a : Access}
    (hgrants : policy.grants l i a = true) : ∃ t, ts[i]? = some t ∧
      ∀ outside, (t.perform (lockAnswer sh policy i t.kind outside (w, l))).isSome := by
  have hwaits : (i, a) ∈ l.waiting := policy.waits hgrants
  have howner : i ∈ l.owners := LockState.mem_owners.mpr (.inr ⟨a, hwaits⟩)
  obtain ⟨t, u, ht, -, hc⟩ := h.exists_of_lt (h.present i howner).1
  refine ⟨t, ht, fun outside => ?_⟩
  have hnodup : (l.waiting.map Prod.fst).Nodup := by
    have howners := h.owners
    rw [LockState.owners, List.map_append] at howners
    exact howners.of_append_right
  generalize hp : t.rest = p at hc
  generalize u.rest = q at hc
  cases hc with
  | outside hout _ => exact absurd howner hout
  | queued hb hsim =>
      obtain rfl : a = _ := congrArg Prod.snd (List.inj_on_of_nodup_map hnodup hwaits hb rfl)
      cases hsim with
      | enter _ => exact Thread.perform_isSome hp (lockAnswer_acquire_isSome hgrants)
      | write _ _ _ => exact Thread.perform_isSome hp (lockAnswer_acquire_isSome hgrants)
  | entered hholds _ => exact (h.not_both hholds hwaits).elim
  | reading hholds _ _ => exact (h.not_both hholds hwaits).elim
  | writing hholds _ _ _ _ _ _ => exact (h.not_both hholds hwaits).elim

/-- As long as somebody has to do with the lock, one that has to do with it can go on. -/
theorem Matches.acts (h : Matches sh l w ts v us) (hpolicy : policy.Progresses)
    (howners : l.owners ≠ []) : ∃ j t, j ∈ l.owners ∧ ts[j]? = some t ∧
      ∀ outside, (t.perform (lockAnswer sh policy j t.kind outside (w, l))).isSome := by
  by_cases hholders : l.holders = []
  · have hwaiting : l.waiting ≠ [] := by
      intro hwaiting
      simp [LockState.owners, hholders, hwaiting] at howners
    obtain ⟨j, a, hgrants⟩ := hpolicy l hholders hwaiting
    obtain ⟨t, ht, hacts⟩ := h.waiter_acts hgrants
    exact ⟨j, t, LockState.mem_owners.mpr (.inr ⟨a, policy.waits hgrants⟩), ht, hacts⟩
  · obtain ⟨⟨j, a⟩, rest, heq⟩ := List.exists_cons_of_ne_nil hholders
    have hin : (j, a) ∈ l.holders := heq ▸ List.mem_cons_self
    obtain ⟨t, ht, hacts⟩ := h.holder_acts hin
    exact ⟨j, t, LockState.mem_owners.mpr (.inl ⟨a, hin⟩), ht, hacts⟩

end Perform

/-! ## What a thread has seen -/

/-- Inside of a critical section or not and, inside, the value that was last looked at. -/
def viewStep (view : Option (Option S)) : Event (GuardOp Op S) (GuardAns Ans S) →
    Option (Option S)
  | ⟨.acquire _, _⟩ => some none
  | ⟨.release, _⟩ => none
  | ⟨.get, s⟩ => view.map fun _ => some s
  | _ => view

def view (events : List (Event (GuardOp Op S) (GuardAns Ans S))) : Option (Option S) :=
  events.foldl viewStep none

theorem view_concat (events : List (Event (GuardOp Op S) (GuardAns Ans S)))
    (e : Event (GuardOp Op S) (GuardAns Ans S)) :
    view (events ++ [e]) = viewStep (view events) e :=
  List.foldl_concat ..

variable (sh) in
/-- One that holds the lock is in a critical section, and what a reader has seen is the
value. -/
def Viewed (l : LockState) (w : W) (ts : List (GuardThread Ans S κ)) : Prop :=
  ∀ {i t}, ts[i]? = some t →
    (∀ a, (i, a) ∈ l.holders → view t.done ≠ none) ∧
    ((i, Access.shared) ∈ l.holders → ∀ s, view t.done = some (some s) → sh.value w = some s)

/-- What threads have seen stays what it was. -/
theorem Matches.viewed {l l' : LockState} {w w' v : W} {ts : List (GuardThread Ans S κ)}
    {us : List (Thread Op Ans κ)} {i : ℕ} {t t' : GuardThread Ans S κ}
    (h : Matches sh l w ts v us) (hviewed : Viewed sh l w ts) (ht : ts[i]? = some t)
    {outside : (o : Op) → Ans o} {e : Event (GuardOp Op S) (GuardAns Ans S)}
    (hstep : t.perform (lockAnswer sh policy i t.kind outside (w, l)) = some (e, t', (w', l'))) :
    Viewed sh l' w' (ts.set i t') := by
  obtain ⟨k, hrest, hanswer, rfl⟩ := Thread.perform_eq_some hstep
  obtain ⟨hold, hseen⟩ := hviewed ht
  -- the other threads do not move, and nobody changes what a reader reads
  have hothers : ∀ {j t₁}, j ≠ i → ts[j]? = some t₁ →
      (∀ a, (j, a) ∈ l'.holders → (j, a) ∈ l.holders) →
      ((j, Access.shared) ∈ l.holders → sh.value w' = sh.value w) →
      (∀ a, (j, a) ∈ l'.holders → view t₁.done ≠ none) ∧ ((j, Access.shared) ∈ l'.holders →
        ∀ s, view t₁.done = some (some s) → sh.value w' = some s) := by
    intro j t₁ _ ht₁ hholders hvalue
    obtain ⟨hold₁, hseen₁⟩ := hviewed ht₁
    refine ⟨fun a ha => hold₁ a (hholders a ha), fun ha s hs => ?_⟩
    exact (hvalue (hholders _ ha)).trans (hseen₁ (hholders _ ha) s hs)
  intro j t₁ ht₁
  obtain ⟨o, r⟩ := e
  cases o with
  | request a =>
      obtain ⟨-, heq⟩ := Option.ite_none_right_eq_some.mp hanswer
      cases heq
      rcases getElem?_set_cases ht₁ with ⟨rfl, rfl⟩ | ⟨hne, ht₁⟩
      · rw [view_concat]
        exact ⟨hold, hseen⟩
      · exact hothers hne ht₁ (fun a ha => ha) fun _ => rfl
  | acquire a =>
      obtain ⟨-, heq⟩ := Option.ite_none_right_eq_some.mp hanswer
      cases heq
      rcases getElem?_set_cases ht₁ with ⟨rfl, rfl⟩ | ⟨hne, ht₁⟩
      · rw [view_concat]
        exact ⟨fun _ _ => Option.some_ne_none _, fun _ s hs => by cases hs⟩
      · refine hothers hne ht₁ (fun b hb => ?_) fun _ => rfl
        rcases List.mem_append.mp hb with hold | hnew
        · exact hold
        · exact absurd (congrArg Prod.fst (List.mem_singleton.mp hnew)) hne
  | release =>
      obtain ⟨-, heq⟩ := Option.ite_none_right_eq_some.mp hanswer
      cases heq
      rcases getElem?_set_cases ht₁ with ⟨rfl, rfl⟩ | ⟨hne, ht₁⟩
      · have hnot : ∀ a, (j, a) ∉ (l.release j).holders := by simp [LockState.release]
        exact ⟨fun a ha => absurd ha (hnot a), fun ha => absurd ha (hnot _)⟩
      · exact hothers hne ht₁ (fun b hb => (List.mem_filter.mp hb).1) fun _ => rfl
  | get =>
      obtain ⟨-, hmap⟩ := Option.ite_none_right_eq_some.mp hanswer
      obtain ⟨s, hnow, heq⟩ := Option.map_eq_some_iff.mp hmap
      cases heq
      rcases getElem?_set_cases ht₁ with ⟨rfl, rfl⟩ | ⟨hne, ht₁⟩
      · rw [view_concat, viewStep]
        refine ⟨fun a ha => ?_, fun ha s' hs' => ?_⟩
        · obtain ⟨x, hx⟩ := Option.ne_none_iff_exists'.mp (hold a ha)
          simp [hx]
        · obtain ⟨x, -, hx⟩ := Option.map_eq_some_iff.mp hs'
          rw [← hx]
          exact hnow
      · exact hothers hne ht₁ (fun a ha => ha) fun _ => rfl
  | put s =>
      obtain ⟨hholds, heq⟩ := Option.ite_none_right_eq_some.mp hanswer
      cases heq
      obtain ⟨hholder, -⟩ := h.worlds.of_exclusive hholds
      have hnobody : ∀ j, (j, Access.shared) ∉ l.holders := by simp [hholder]
      rcases getElem?_set_cases ht₁ with ⟨rfl, rfl⟩ | ⟨hne, ht₁⟩
      · rw [view_concat]
        exact ⟨hold, fun ha => absurd ha (hnobody j)⟩
      · exact hothers hne ht₁ (fun a ha => ha) fun ha => absurd ha (hnobody j)
  | op o =>
      obtain ⟨hother, hmap⟩ := Option.ite_none_right_eq_some.mp hanswer
      obtain ⟨⟨r', w''⟩, hop, heq⟩ := Option.map_eq_some_iff.mp hmap
      cases heq
      have hvalue := sh.value_answer (Option.isNone_iff_eq_none.mp hother) hop
      rcases getElem?_set_cases ht₁ with ⟨rfl, rfl⟩ | ⟨hne, ht₁⟩
      · rw [view_concat]
        exact ⟨hold, fun ha s hs => hvalue.trans (hseen ha s hs)⟩
      · exact hothers hne ht₁ (fun a ha => ha) fun _ => hvalue

end Runs
end Foundations
