/-
ReviewSearch.Proofs.Stream.Faults — where the faults of an index go.

An index may refuse a search, and a reader may lose items on the way: it
delivers a fault in the place of each.

* `Course.withoutFaults` — a course without its faults is the course over
  an index that loses nothing (`Index.mended`), if it is so for the feeds
  that it is made of;
* `Surfaces` — every fault of a list comes out at its place, once, and no
  item comes out of order;
* `Pulled` — what is pulled of all that arrives for a demand: all of it, or
  what arrives up to the last record wanted;
* `Course.Accounts` — what surfaces in a course is what is pulled of the
  answers to its searches, demand by demand. This is closed under all that
  is done to feeds.
-/
import ReviewSearch.Proofs.Stream.Course

namespace ReviewSearch

variable {ν α β γ : Type} {ix : Index}

/-- The index that loses no items. It refuses the same searches. -/
def Index.mended (ix : Index) : Index :=
  { ix with search := fun n p w => (ix.search n p w).map fun items => (itemsOf items).map .ok }

theorem Index.search_mended_of_error {n : Nat} {p : Predicate} {w : Window} {e : Fault}
    (h : ix.search n p w = .error e) : ix.mended.search n p w = .error e := by
  simp only [mended, h]
  rfl

theorem Index.search_mended_of_ok {n : Nat} {p : Predicate} {w : Window}
    {items : List (Except Fault Document)} (h : ix.search n p w = .ok items) :
    ix.mended.search n p w = .ok ((itemsOf items).map .ok) := by
  simp only [mended, h]
  rfl

/-! ## Without the faults -/

def Move.isFault : Move ν α → Bool
  | .answer (.error _) => true
  | _ => false

namespace Course

/-- The course without its faults. -/
def withoutFaults (c : Course ν α) : Course ν α :=
  c.filter fun m => !m.isFault

@[simp] theorem withoutFaults_nil : withoutFaults ([] : Course ν α) = [] := rfl

@[simp] theorem withoutFaults_call (call : Call ν) (c : Course ν α) :
    withoutFaults (.call call :: c) = .call call :: withoutFaults c := rfl

@[simp] theorem withoutFaults_error (e : Fault) (c : Course ν α) :
    withoutFaults (.answer (.error e) :: c) = withoutFaults c := rfl

@[simp] theorem withoutFaults_ok (a : α) (c : Course ν α) :
    withoutFaults (.answer (.ok a) :: c) = .answer (.ok a) :: withoutFaults c := rfl

@[simp] theorem withoutFaults_append (c c' : Course ν α) :
    withoutFaults (c ++ c') = withoutFaults c ++ withoutFaults c' :=
  List.filter_append ..

@[simp] theorem withoutFaults_ofCalls (cs : List (Call ν)) :
    withoutFaults (ofCalls cs : Course ν α) = ofCalls cs := by
  induction cs with
  | nil => rfl
  | cons call cs ih => exact congrArg (.call call :: ·) ih

@[simp] theorem calls_withoutFaults (c : Course ν α) : calls (withoutFaults c) = calls c := by
  induction c using Course.induction with
  | nil => rfl
  | call call c ih => exact congrArg (call :: ·) ih
  | error e c ih => exact ih
  | ok a c ih => exact ih

@[simp] theorem searches_withoutFaults (c : Course ν α) :
    searches (withoutFaults c) = searches c := by
  rw [searches, calls_withoutFaults, searches]

@[simp] theorem items_withoutFaults (c : Course ν α) : items (withoutFaults c) = items c := by
  induction c using Course.induction with
  | nil => rfl
  | call call c ih => exact ih
  | error e c ih => exact ih
  | ok a c ih => exact congrArg (a :: ·) ih

theorem withoutFaults_sift (f : α → List ν × Option β) (c : Course ν α) :
    withoutFaults (sift f c) = sift f (withoutFaults c) := by
  induction c using Course.induction with
  | nil => rfl
  | call call c ih => simp [sift, ih]
  | error e c ih => simp [sift, ih]
  | ok a c ih => cases h : (f a).2 <;> simp [sift, h, ih]

theorem withoutFaults_distinct (key : α → Nat) (seen : List Nat) (c : Course ν α) :
    withoutFaults (distinct key seen c) = distinct key seen (withoutFaults c) := by
  induction c using Course.induction generalizing seen with
  | nil => rfl
  | call call c ih => simp [distinct, ih]
  | error e c ih => simp [distinct, ih]
  | ok a c ih => by_cases ha : key a ∈ seen <;> simp [distinct, ha, ih]

/-- Courses that are the same without faults make the same calls and give
the same items. -/
theorem items_eq_of_withoutFaults {c c' : Course ν α} (h : withoutFaults c = withoutFaults c') :
    items c = items c' ∧ calls c = calls c' := by
  rw [← items_withoutFaults c, ← calls_withoutFaults c, h, items_withoutFaults,
    calls_withoutFaults]
  exact ⟨rfl, rfl⟩

end Course

/-! ## Faults at their places -/

/-- The second list has the faults of the first, each at its place, and
some of its items, each in its turn and changed as `R` allows. -/
inductive Surfaces (R : α → β → Prop) : List (Except Fault α) → List (Except Fault β) → Prop
  | nil : Surfaces R [] []
  | fault (e : Fault) {xs : List (Except Fault α)} {ys : List (Except Fault β)}
      (h : Surfaces R xs ys) : Surfaces R (.error e :: xs) (.error e :: ys)
  | dropped (a : α) {xs : List (Except Fault α)} {ys : List (Except Fault β)}
      (h : Surfaces R xs ys) : Surfaces R (.ok a :: xs) ys
  | passed {a : α} {b : β} (hab : R a b) {xs : List (Except Fault α)}
      {ys : List (Except Fault β)} (h : Surfaces R xs ys) :
      Surfaces R (.ok a :: xs) (.ok b :: ys)

namespace Surfaces

variable {R : α → β → Prop} {R' : β → γ → Prop} {R'' : α → γ → Prop}
variable {xs xs' : List (Except Fault α)} {ys ys' : List (Except Fault β)}

theorem append (h : Surfaces R xs ys) (h' : Surfaces R xs' ys') :
    Surfaces R (xs ++ xs') (ys ++ ys') := by
  induction h with
  | nil => exact h'
  | fault e _ ih => exact .fault e ih
  | dropped a _ ih => exact .dropped a ih
  | passed hab _ ih => exact .passed hab ih

theorem trans {zs : List (Except Fault γ)} (hR : ∀ a b c, R a b → R' b c → R'' a c)
    (h : Surfaces R xs ys) (h' : Surfaces R' ys zs) : Surfaces R'' xs zs := by
  induction h generalizing zs with
  | nil =>
    cases h'
    exact .nil
  | fault e _ ih =>
    cases h' with
    | fault _ h' => exact .fault e (ih h')
  | dropped a _ ih => exact .dropped a (ih h')
  | passed hab _ ih =>
    cases h' with
    | dropped _ h' => exact .dropped _ (ih h')
    | passed hbc h' => exact .passed (hR _ _ _ hab hbc) (ih h')

theorem mem_of_error_mem {e : Fault} (h : Surfaces R xs ys) (he : .error e ∈ ys) :
    .error e ∈ xs := by
  induction h with
  | nil => exact absurd he List.not_mem_nil
  | fault e' _ ih =>
    rcases List.mem_cons.mp he with heq | he
    · cases heq
      exact List.mem_cons_self
    · exact List.mem_cons_of_mem _ (ih he)
  | dropped a _ ih => exact List.mem_cons_of_mem _ (ih he)
  | passed _ _ ih =>
    rcases List.mem_cons.mp he with heq | he
    · cases heq
    · exact List.mem_cons_of_mem _ (ih he)

theorem sift {f : α → List ν × Option β} (hf : ∀ a b, (f a).2 = some b → R a b)
    (c : Course ν α) : Surfaces R c.answers (c.sift f).answers := by
  induction c using Course.induction with
  | nil => exact .nil
  | call call c ih => exact ih
  | error e c ih => exact .fault e ih
  | ok a c ih =>
    rw [Course.sift, Course.answers_append, Course.answers_ofCalls]
    cases h : (f a).2 with
    | none => exact .dropped a ih
    | some b => exact .passed (hf a b h) ih

theorem distinct (key : α → Nat) (seen : List Nat) (c : Course ν α) :
    Surfaces Eq c.answers (c.distinct key seen).answers := by
  induction c using Course.induction generalizing seen with
  | nil => exact .nil
  | call call c ih => exact ih seen
  | error e c ih => exact .fault e (ih seen)
  | ok a c ih =>
    rw [Course.distinct]
    split
    · exact .dropped a (ih seen)
    · exact .passed rfl (ih _)

end Surfaces

/-! ## What is pulled -/

/-- What a reader wants: so many of the records that it accepts. -/
structure Demand where
  accepts : Document → Bool
  want : Nat

/-- What is pulled of all that arrives for a demand: everything, if fewer
records are accepted than are wanted; otherwise what arrives up to the last
record that is wanted, and nothing behind it. If none is wanted, nothing
arrives. -/
inductive Pulled (w : Demand) :
    List (Except Fault Document) → List (Except Fault Document) → Prop
  | nothing (h : w.want = 0) : Pulled w [] []
  | whole {items : List (Except Fault Document)} (h : (itemsOf items).countP w.accepts < w.want) :
      Pulled w items items
  | front {before : List (Except Fault Document)} {d : Document}
      (after : List (Except Fault Document)) (hd : w.accepts d = true)
      (h : (itemsOf before).countP w.accepts + 1 = w.want) :
      Pulled w (before ++ .ok d :: after) (before ++ [.ok d])

namespace Pulled

variable {w : Demand} {accepts : Document → Bool} {want : Nat}
variable {xs ys zs : List (Except Fault Document)}

theorem nil (w : Demand) : Pulled w [] [] := by
  by_cases h : w.want = 0
  · exact .nothing h
  · exact .whole (Nat.pos_of_ne_zero h)

theorem subset (h : Pulled w xs ys) : ys ⊆ xs := by
  cases h with
  | nothing => exact List.Subset.refl _
  | whole => exact List.Subset.refl _
  | front after => exact List.append_subset.mpr ⟨List.subset_append_left .., by simp⟩

/-- Everything is pulled while records are still wanted. -/
theorem eq_of_lt (h : Pulled w xs ys) (hlt : (itemsOf xs).countP w.accepts < w.want) :
    ys = xs := by
  cases h with
  | nothing => rfl
  | whole => rfl
  | front after hd hlast =>
    rw [itemsOf_append, itemsOf_ok, List.countP_append, List.countP_cons_of_pos hd] at hlt
    omega

/-- What arrives first is pulled if it does not meet the demand, and leaves
less to demand of the rest. -/
theorem append (hlt : (itemsOf xs).countP accepts < want)
    (h : Pulled ⟨accepts, want - (itemsOf xs).countP accepts⟩ ys zs) :
    Pulled ⟨accepts, want⟩ (xs ++ ys) (xs ++ zs) := by
  cases h with
  | nothing hnone =>
    dsimp only at hnone
    omega
  | whole hmore =>
    refine .whole ?_
    rw [itemsOf_append, List.countP_append]
    dsimp only at hmore ⊢
    omega
  | @front before d after hd hlast =>
    rw [← List.append_assoc, ← List.append_assoc]
    refine .front after hd ?_
    rw [itemsOf_append, List.countP_append]
    dsimp only at hlast ⊢
    omega

theorem error (e : Fault) (hw : 0 < want) (h : Pulled ⟨accepts, want⟩ xs ys) :
    Pulled ⟨accepts, want⟩ (.error e :: xs) (.error e :: ys) := by
  show Pulled _ ([.error e] ++ xs) ([.error e] ++ ys)
  exact append hw h

theorem accepted {d : Document} (hd : accepts d = true) (hw : 0 < want)
    (h : Pulled ⟨accepts, want⟩ xs ys) :
    Pulled ⟨accepts, want + 1⟩ (.ok d :: xs) (.ok d :: ys) := by
  have hone : (itemsOf [.ok d]).countP accepts = 1 := by simp [hd]
  show Pulled _ ([.ok d] ++ xs) ([.ok d] ++ ys)
  exact append (by omega) (by rwa [hone])

theorem rejected {d : Document} (hd : accepts d = false) (hw : 0 < want)
    (h : Pulled ⟨accepts, want⟩ xs ys) : Pulled ⟨accepts, want⟩ (.ok d :: xs) (.ok d :: ys) := by
  have hnone : (itemsOf [.ok d]).countP accepts = 0 := by simp [hd]
  show Pulled _ ([.ok d] ++ xs) ([.ok d] ++ ys)
  exact append (by omega) (by rwa [hnone])

end Pulled

/-- What arrives by the answer to a search: its items, or the fault of a
search that is refused. -/
def Answer.arrivals : Answer → List (Except Fault Document)
  | .ok items => items
  | .error e => [.error e]

/-- A reading of an index: the answers to its searches, and what is pulled
of them. -/
structure Reading where
  replies : List Answer
  pulled : List (Except Fault Document)

/-- A reading for a demand. -/
def Reading.Meets (w : Demand) (r : Reading) : Prop :=
  Pulled w (r.replies.flatMap Answer.arrivals) r.pulled

theorem Reading.exists_answer_of_mem {ws : List Demand} {rs : List Reading}
    (h : List.Forall₂ Meets ws rs) {r : Reading} (hr : r ∈ rs) {x : Except Fault Document}
    (hx : x ∈ r.pulled) : ∃ answer ∈ r.replies, x ∈ answer.arrivals := by
  induction h with
  | nil => exact absurd hr List.not_mem_nil
  | cons hmeets _ ih =>
    rcases List.mem_cons.mp hr with rfl | hr
    · exact List.mem_flatMap.mp (hmeets.subset hx)
    · exact ih hr

/-- The answers of an index to calls that come behind `n` searches. -/
def Call.answersFrom (ix : Index) : Nat → List (Call ν) → List Answer
  | _, [] => []
  | n, .search p w :: cs => ix.search (n + 1) p w :: answersFrom ix (n + 1) cs
  | n, .cardinality _ :: cs | n, .release :: cs | n, .note _ :: cs => answersFrom ix n cs

theorem Call.answersFrom_append (n : Nat) (cs cs' : List (Call ν)) :
    answersFrom ix n (cs ++ cs')
      = answersFrom ix n cs ++ answersFrom ix (n + cs.countP isSearch) cs' := by
  induction cs generalizing n with
  | nil => rfl
  | cons c cs ih =>
    cases c with
    | search p w =>
      simp only [List.cons_append, answersFrom, ih, List.countP_cons, isSearch, if_true]
      rw [Nat.add_assoc, Nat.add_comm 1]
    | _ => simp [answersFrom, ih, isSearch]

theorem Call.exists_of_mem_answersFrom {n : Nat} {cs : List (Call ν)} {answer : Answer}
    (h : answer ∈ answersFrom ix n cs) : ∃ m p w, answer = ix.search m p w := by
  induction cs generalizing n with
  | nil => exact absurd h List.not_mem_nil
  | cons c cs ih =>
    cases c with
    | search p w =>
      rcases List.mem_cons.mp h with rfl | h
      · exact ⟨n + 1, p, w, rfl⟩
      · exact ih h
    | _ => exact ih h

theorem Call.answersFrom_of_countP_eq_zero {n : Nat} {cs : List (Call ν)}
    (h : cs.countP isSearch = 0) : answersFrom ix n cs = [] := by
  induction cs with
  | nil => rfl
  | cons c cs ih =>
    cases c with
    | search p w => simp [isSearch] at h
    | _ => exact ih (by simpa [isSearch] using h)

namespace Course

/-- The answers of an index to the searches of a course that comes behind
`n` searches. -/
def replied (ix : Index) (n : Nat) (c : Course ν α) : List Answer :=
  Call.answersFrom ix n c.calls

theorem replied_append (n : Nat) (c c' : Course ν α) :
    replied ix n (c ++ c') = replied ix n c ++ replied ix (n + c.searches) c' := by
  rw [replied, calls_append, Call.answersFrom_append]
  rfl

theorem replied_of_searches_eq_zero {n : Nat} {c : Course ν α} (h : c.searches = 0) :
    replied ix n c = [] :=
  Call.answersFrom_of_countP_eq_zero h

theorem replied_distinct (key : α → Nat) (seen : List Nat) (n : Nat) (c : Course ν α) :
    replied ix n (distinct key seen c) = replied ix n c := by
  rw [replied, calls_distinct, replied]

/-- The notes of a sieve are no searches. -/
theorem replied_sift (f : α → List ν × Option β) (n : Nat) (c : Course ν α) :
    replied ix n (sift f c) = replied ix n c := by
  induction c using Course.induction generalizing n with
  | nil => rfl
  | call call c ih =>
    cases call with
    | search p w => exact congrArg (ix.search (n + 1) p w :: ·) (ih (n + 1))
    | _ => exact ih n
  | error e c ih => exact ih n
  | ok a c ih =>
    have hnotes : searches (ofCalls ((f a).1.map .note) : Course ν β) = 0 := searches_notes _
    rw [sift, replied_append, replied_of_searches_eq_zero hnotes, hnotes]
    cases (f a).2 <;> exact ih n

/-- All that arrives in a course that comes behind `n` searches. -/
def arrived (ix : Index) (n : Nat) (c : Course ν α) : List (Except Fault Document) :=
  (c.replied ix n).flatMap Answer.arrivals

theorem arrived_append (n : Nat) (c c' : Course ν α) :
    arrived ix n (c ++ c') = arrived ix n c ++ arrived ix (n + c.searches) c' := by
  rw [arrived, replied_append, List.flatMap_append]
  rfl

theorem arrived_of_searches_eq_zero {n : Nat} {c : Course ν α} (h : c.searches = 0) :
    arrived ix n c = [] := by
  rw [arrived, replied_of_searches_eq_zero h, List.flatMap_nil]

theorem arrived_search (n : Nat) (p : Predicate) (w : Window) (c : Course ν α) :
    arrived ix n (.call (.search p w) :: c)
      = (ix.search (n + 1) p w).arrivals ++ arrived ix (n + 1) c := rfl

theorem arrived_release (n : Nat) (c : Course ν α) :
    arrived ix n (.call .release :: c) = arrived ix n c := rfl

/-- A course is made of readings, one for each demand, and its answers are
what surfaces of what these pull. -/
def Accounts (ix : Index) (R : Document → α → Prop) (n : Nat) (ws : List Demand)
    (c : Course ν α) : Prop :=
  ∃ rs : List Reading, List.Forall₂ Reading.Meets ws rs
    ∧ rs.flatMap Reading.replies = c.replied ix n
    ∧ Surfaces R (rs.flatMap Reading.pulled) c.answers

namespace Accounts

variable {R : Document → α → Prop} {n : Nat} {ws ws' : List Demand} {c c' : Course ν α}

theorem nil : Accounts ix R n [] ([] : Course ν α) :=
  ⟨[], .nil, rfl, .nil⟩

theorem append (h : Accounts ix R n ws c) (h' : Accounts ix R (n + c.searches) ws' c') :
    Accounts ix R n (ws ++ ws') (c ++ c') := by
  obtain ⟨rs, hmeets, hreplies, hc⟩ := h
  obtain ⟨rs', hmeets', hreplies', hc'⟩ := h'
  refine ⟨rs ++ rs', List.rel_append hmeets hmeets', ?_, ?_⟩
  · rw [List.flatMap_append, hreplies, hreplies', replied_append]
  · rw [List.flatMap_append, answers_append]
    exact hc.append hc'

/-- Calls that are no searches add nothing. -/
theorem calls {cs : List (Call ν)} (hcs : searches (ofCalls cs : Course ν α) = 0)
    (h : Accounts ix R n ws c) : Accounts ix R n ws (ofCalls cs ++ c) := by
  have hquiet : Accounts ix R n [] (ofCalls cs : Course ν α) := by
    refine ⟨[], .nil, (replied_of_searches_eq_zero hcs).symm, ?_⟩
    rw [answers_ofCalls]
    exact .nil
  exact hquiet.append (hcs ▸ h)

/-- A course that is one reading. -/
theorem of_pulled {w : Demand} {pulled : List (Except Fault Document)}
    (h : Pulled w (c.arrived ix n) pulled) (hc : Surfaces R pulled c.answers) :
    Accounts ix R n [w] c := by
  refine ⟨[⟨c.replied ix n, pulled⟩], .cons h .nil, List.flatMap_singleton .., ?_⟩
  rw [List.flatMap_singleton]
  exact hc

theorem sift {R' : α → β → Prop} {R'' : Document → β → Prop} {f : α → List ν × Option β}
    (hf : ∀ a b, (f a).2 = some b → R' a b) (hR : ∀ d a b, R d a → R' a b → R'' d b)
    (h : Accounts ix R n ws c) : Accounts ix R'' n ws (c.sift f) := by
  obtain ⟨rs, hmeets, hreplies, hc⟩ := h
  exact ⟨rs, hmeets, replied_sift f n c ▸ hreplies, hc.trans hR (.sift hf c)⟩

theorem distinct (h : Accounts ix R n ws c) (key : α → Nat) (seen : List Nat) :
    Accounts ix R n ws (c.distinct key seen) := by
  obtain ⟨rs, hmeets, hreplies, hc⟩ := h
  refine ⟨rs, hmeets, replied_distinct key seen n c ▸ hreplies, ?_⟩
  have heq (d : Document) (a b : α) (h : R d a) (hab : a = b) : R d b := hab ▸ h
  exact hc.trans heq (.distinct key seen c)

/-- Where no search is refused and no record is lost, no fault comes out. -/
theorem answers_eq {c : Course ν Document} {R : Document → Document → Prop}
    (h : Accounts ix.mended R n ws c) (hix : ∀ n p w, ∃ items, ix.search n p w = .ok items) :
    c.answers = c.items.map .ok := by
  obtain ⟨rs, hmeets, hreplies, hc⟩ := h
  refine eq_map_itemsOf fun e he => ?_
  obtain ⟨r, hr, he⟩ := List.mem_flatMap.mp (hc.mem_of_error_mem he)
  obtain ⟨answer, hanswer, he⟩ := Reading.exists_answer_of_mem hmeets hr he
  have hreplied : answer ∈ c.replied ix.mended n :=
    hreplies ▸ List.mem_flatMap.mpr ⟨r, hr, hanswer⟩
  obtain ⟨m, p, w, rfl⟩ := Call.exists_of_mem_answersFrom hreplied
  obtain ⟨items, hitems⟩ := hix m p w
  rw [Index.search_mended_of_ok hitems] at he
  simp [Answer.arrivals] at he

end Accounts

/-! ### Searches that are refused -/

/-- Behind a search that is refused comes its fault, and nothing else. -/
def EndsAtRefusal (ix : Index) (n : Nat) (c : Course ν α) : Prop :=
  ∀ (before : Course ν α) p w after e, c = before ++ .call (.search p w) :: after →
    ix.search (n + before.searches + 1) p w = .error e → after = [.answer (.error e)]

namespace EndsAtRefusal

variable {n : Nat} {c c' : Course ν α}

theorem nil : EndsAtRefusal ix n ([] : Course ν α) :=
  fun _ _ _ _ _ h => absurd h.symm (by simp)

/-- Moves before the first search do not matter. -/
theorem of_quiet (hc : c.searches = 0) (h : EndsAtRefusal ix n c') :
    EndsAtRefusal ix n (c ++ c') := by
  intro before p w after e heq hrefused
  rcases List.append_eq_append_iff.mp heq with ⟨before', rfl, hc'⟩ | ⟨c'', rfl, hc'⟩
  · rw [searches_append, hc, Nat.zero_add] at hrefused
    exact h before' p w after e hc' hrefused
  · -- the search is not among the moves of `c`
    cases c'' with
    | nil =>
      rw [List.append_nil] at hc
      rw [hc, Nat.add_zero] at hrefused
      exact h [] p w after e hc'.symm hrefused
    | cons m c'' =>
      obtain ⟨rfl, -⟩ := List.cons_eq_cons.mp hc'
      simp [Call.isSearch] at hc

theorem search {p : Predicate} {w : Window}
    (hrefused : ∀ e, ix.search (n + 1) p w = .error e → c = [.answer (.error e)])
    (h : EndsAtRefusal ix (n + 1) c) : EndsAtRefusal ix n (.call (.search p w) :: c) := by
  intro before p' w' after e heq hrefused'
  cases before with
  | nil =>
    obtain ⟨hmove, rfl⟩ := List.cons_eq_cons.mp heq
    cases hmove
    exact hrefused e hrefused'
  | cons m before =>
    obtain ⟨rfl, rfl⟩ := List.cons_eq_cons.mp heq
    have hcount : n + searches (.call (.search p w) :: before)
        = n + 1 + searches before := by
      rw [searches_call, Nat.add_right_comm]
      rfl
    exact h before p' w' after e rfl (hcount ▸ hrefused')

end EndsAtRefusal

end Course

end ReviewSearch
