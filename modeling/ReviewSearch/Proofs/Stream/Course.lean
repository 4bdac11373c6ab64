/-
ReviewSearch.Proofs.Stream.Course — what happens while a feed is read to
its end.

The COURSE of a feed over an index is the list of its moves up to the
first end: the calls it makes and the answers it gives, in their order.
An index may fail at some searches and not at others, so the course
depends on how many searches were made before; on nothing else.

* `Feed.course_append`, `Feed.course_sift`, `Feed.course_distinct` — what
  is done to feeds is done to courses, faults or not: sifting and dropping
  repetitions leave calls and faults where they are, and so does changing
  the items (`Course.mapItems`);
* `Feed.delivered_eq_answers` — over a steady index, what a feed delivers
  are the answers of its course. So what is done to feeds is done to the
  lists that they deliver.
-/
import ReviewSearch.Proofs.Stream.Delivery
import ReviewSearch.Proofs.Stream.Readers

namespace ReviewSearch

variable {ν α β : Type}

/-- The items of a list of items and faults. -/
def itemsOf (xs : List (Except Fault α)) : List α :=
  xs.filterMap Except.toOption

@[simp] theorem itemsOf_nil : itemsOf ([] : List (Except Fault α)) = [] := rfl

@[simp] theorem itemsOf_ok (a : α) (xs : List (Except Fault α)) :
    itemsOf (.ok a :: xs) = a :: itemsOf xs := rfl

@[simp] theorem itemsOf_error (e : Fault) (xs : List (Except Fault α)) :
    itemsOf (.error e :: xs) = itemsOf xs := rfl

@[simp] theorem itemsOf_append (xs ys : List (Except Fault α)) :
    itemsOf (xs ++ ys) = itemsOf xs ++ itemsOf ys :=
  List.filterMap_append

@[simp] theorem itemsOf_map_ok (as : List α) : itemsOf (as.map .ok) = as := by
  induction as with
  | nil => rfl
  | cons a as ih => rw [List.map_cons, itemsOf_ok, ih]

theorem eq_map_itemsOf {xs : List (Except Fault α)} (h : ∀ e, .error e ∉ xs) :
    xs = (itemsOf xs).map .ok := by
  induction xs with
  | nil => rfl
  | cons x xs ih =>
    cases x with
    | error e => exact absurd List.mem_cons_self (h e)
    | ok a =>
      rw [itemsOf_ok, List.map_cons, ← ih fun e he => h e (List.mem_cons_of_mem _ he)]

/-! ## Courses -/

/-- A call, or an answer to the reader. -/
inductive Move (ν α : Type) where
  | call (c : Call ν)
  | answer (x : Except Fault α)

namespace Move

def call? : Move ν α → Option (Call ν)
  | .call c => some c
  | .answer _ => none

def answer? : Move ν α → Option (Except Fault α)
  | .call _ => none
  | .answer x => some x

def map (f : α → β) : Move ν α → Move ν β
  | .call c => .call c
  | .answer x => .answer (x.map f)

end Move

abbrev Course (ν α : Type) : Type := List (Move ν α)

namespace Course

/-- Induction over a course, with items and faults apart. -/
@[elab_as_elim]
theorem induction {motive : Course ν α → Prop} (nil : motive [])
    (call : ∀ call c, motive c → motive (.call call :: c))
    (error : ∀ e c, motive c → motive (.answer (.error e) :: c))
    (ok : ∀ a c, motive c → motive (.answer (.ok a) :: c)) (c : Course ν α) : motive c := by
  induction c with
  | nil => exact nil
  | cons m c ih =>
    match m with
    | .call a => exact call a c ih
    | .answer (.error e) => exact error e c ih
    | .answer (.ok a) => exact ok a c ih

def calls (c : Course ν α) : List (Call ν) :=
  c.filterMap Move.call?

def answers (c : Course ν α) : List (Except Fault α) :=
  c.filterMap Move.answer?

/-- The searches among the calls. -/
def asked (c : Course ν α) : List (Call ν) :=
  c.calls.filter Call.isSearch

def searches (c : Course ν α) : Nat :=
  c.calls.countP Call.isSearch

/-- The items among the answers. -/
def items (c : Course ν α) : List α :=
  itemsOf c.answers

/-- The course with every item changed. -/
def mapItems (f : α → β) (c : Course ν α) : Course ν β :=
  c.map (Move.map f)

/-- A course of calls alone. -/
def ofCalls (cs : List (Call ν)) : Course ν α :=
  cs.map .call

section Lemmas

variable (call : Call ν) (x : Except Fault α) (cs : List (Call ν)) (c c' : Course ν α)

@[simp] theorem calls_nil : calls ([] : Course ν α) = [] := rfl

@[simp] theorem calls_call : calls (.call call :: c) = call :: calls c := rfl

@[simp] theorem calls_answer : calls (.answer x :: c) = calls c := rfl

@[simp] theorem calls_append : calls (c ++ c') = calls c ++ calls c' :=
  List.filterMap_append

@[simp] theorem calls_ofCalls : calls (ofCalls cs : Course ν α) = cs := by
  induction cs with
  | nil => rfl
  | cons call cs ih => exact congrArg (call :: ·) ih

@[simp] theorem answers_nil : answers ([] : Course ν α) = [] := rfl

@[simp] theorem answers_call : answers (.call call :: c) = answers c := rfl

@[simp] theorem answers_answer : answers (.answer x :: c) = x :: answers c := rfl

@[simp] theorem answers_append : answers (c ++ c') = answers c ++ answers c' :=
  List.filterMap_append

@[simp] theorem answers_ofCalls : answers (ofCalls cs : Course ν α) = [] := by
  induction cs with
  | nil => rfl
  | cons call cs ih => exact ih

@[simp] theorem searches_nil : searches ([] : Course ν α) = 0 := rfl

@[simp] theorem searches_call :
    searches (.call call :: c) = searches c + call.isSearch.toNat := by
  cases h : call.isSearch <;> simp [searches, h]

@[simp] theorem searches_answer : searches (.answer x :: c) = searches c := rfl

@[simp] theorem searches_append : searches (c ++ c') = searches c + searches c' := by
  simp [searches]

@[simp] theorem asked_append : asked (c ++ c') = asked c ++ asked c' := by
  simp [asked]

@[simp] theorem items_nil : items ([] : Course ν α) = [] := rfl

@[simp] theorem items_call : items (.call call :: c) = items c := rfl

@[simp] theorem items_error (e : Fault) : items (.answer (.error e) :: c) = items c := rfl

@[simp] theorem items_ok (a : α) : items (.answer (.ok a) :: c) = a :: items c := rfl

@[simp] theorem items_append : items (c ++ c') = items c ++ items c' := by
  simp [items]

@[simp] theorem items_ofCalls : items (ofCalls cs : Course ν α) = [] := by
  simp [items]

end Lemmas

theorem asked_of_searches_eq_zero {c : Course ν α} (h : c.searches = 0) : c.asked = [] := by
  rw [searches, List.countP_eq_length_filter] at h
  exact List.eq_nil_of_length_eq_zero h

/-- Notes and questions for cardinalities are no searches. -/
theorem searches_ofCalls {cs : List (Call ν)} (h : ∀ call ∈ cs, call.isSearch = false) :
    searches (ofCalls cs : Course ν α) = 0 := by
  rw [searches, calls_ofCalls, List.countP_eq_zero]
  exact fun call hcall => by simp [h call hcall]

@[simp] theorem searches_notes (ns : List ν) :
    searches (ofCalls (ns.map .note) : Course ν α) = 0 :=
  searches_ofCalls (List.forall_mem_map.mpr fun _ _ => rfl)

@[simp] theorem searches_cardinalities (ps : List Predicate) :
    searches (ofCalls (ps.map .cardinality) : Course ν α) = 0 :=
  searches_ofCalls (List.forall_mem_map.mpr fun _ _ => rfl)

/-! ### Sifting and dropping repetitions -/

/-- Passes every item through `f`, as `Feed.sift` does. -/
def sift (f : α → List ν × Option β) : Course ν α → Course ν β
  | [] => []
  | .call call :: c => .call call :: sift f c
  | .answer (.error e) :: c => .answer (.error e) :: sift f c
  | .answer (.ok a) :: c =>
    ofCalls ((f a).1.map .note) ++
      match (f a).2 with
      | some b => .answer (.ok b) :: sift f c
      | none => sift f c

/-- Drops items whose key has been seen, and no other move. -/
def distinct (key : α → Nat) : List Nat → Course ν α → Course ν α
  | _, [] => []
  | seen, .call call :: c => .call call :: distinct key seen c
  | seen, .answer (.error e) :: c => .answer (.error e) :: distinct key seen c
  | seen, .answer (.ok a) :: c =>
    if seen.contains (key a) then distinct key seen c
    else .answer (.ok a) :: distinct key (key a :: seen) c

theorem distinct_congr {key : α → Nat} {seen seen' : List Nat} (h : ∀ k, k ∈ seen ↔ k ∈ seen')
    (c : Course ν α) : distinct key seen c = distinct key seen' c := by
  induction c using Course.induction generalizing seen seen' with
  | nil => rfl
  | call call c ih => exact congrArg (.call call :: ·) (ih h)
  | error e c ih => exact congrArg (.answer (.error e) :: ·) (ih h)
  | ok a c ih =>
    have hcons : ∀ k, k ∈ key a :: seen ↔ k ∈ key a :: seen' := by simp [h]
    simp only [distinct, List.contains_eq_mem, h, ih h, ih hcons]

/-- Behind a course, what it has given has been seen. -/
theorem distinct_append (key : α → Nat) (seen : List Nat) (c c' : Course ν α) :
    distinct key seen (c ++ c') = distinct key seen c
      ++ distinct key ((distinct key seen c).items.map key ++ seen) c' := by
  induction c using Course.induction generalizing seen with
  | nil => rfl
  | call call c ih => exact congrArg (.call call :: ·) (ih seen)
  | error e c ih => exact congrArg (.answer (.error e) :: ·) (ih seen)
  | ok a c ih =>
    by_cases ha : key a ∈ seen
    · simp [distinct, ha, ih]
    · simp only [List.cons_append, distinct, List.contains_eq_mem, ha, decide_false,
        Bool.false_eq_true, if_false, ih, items_ok, List.map_cons]
      refine congrArg _ (congrArg _ (distinct_congr (fun k => ?_) c'))
      simp [or_left_comm]

theorem sift_append (f : α → List ν × Option β) (c c' : Course ν α) :
    sift f (c ++ c') = sift f c ++ sift f c' := by
  induction c using Course.induction with
  | nil => rfl
  | call call c ih => simp [sift, ih]
  | error e c ih => simp [sift, ih]
  | ok a c ih => cases h : (f a).2 <;> simp [sift, h, ih]

theorem sift_ofCalls (f : α → List ν × Option β) (cs : List (Call ν)) :
    sift f (ofCalls cs) = ofCalls cs := by
  induction cs with
  | nil => rfl
  | cons call cs ih => exact congrArg (.call call :: ·) ih

theorem answers_sift (f : α → List ν × Option β) (c : Course ν α) :
    answers (sift f c) = (answers c).filterMap fun
      | .ok a => (f a).2.map .ok
      | .error e => some (.error e) := by
  induction c using Course.induction with
  | nil => rfl
  | call call c ih => simp [sift, ih]
  | error e c ih => simp [sift, ih]
  | ok a c ih => cases h : (f a).2 <;> simp [sift, h, ih]

theorem items_sift (f : α → List ν × Option β) (c : Course ν α) :
    items (sift f c) = (items c).filterMap fun a => (f a).2 := by
  induction c using Course.induction with
  | nil => rfl
  | call call c ih => exact ih
  | error e c ih => exact ih
  | ok a c ih => cases h : (f a).2 <;> simp [sift, h, ih]

theorem distinct_ofCalls (key : α → Nat) (seen : List Nat) (cs : List (Call ν))
    (c : Course ν α) : distinct key seen (ofCalls cs ++ c) = ofCalls cs ++ distinct key seen c := by
  induction cs with
  | nil => rfl
  | cons call cs ih => exact congrArg (.call call :: ·) ih

@[simp] theorem calls_distinct (key : α → Nat) (seen : List Nat) (c : Course ν α) :
    calls (distinct key seen c) = calls c := by
  induction c using Course.induction generalizing seen with
  | nil => rfl
  | call call c ih => simp [distinct, ih]
  | error e c ih => simp [distinct, ih]
  | ok a c ih =>
    rw [distinct]
    split <;> simp [ih]

theorem answers_distinct_sublist (key : α → Nat) (seen : List Nat) (c : Course ν α) :
    (answers (distinct key seen c)).Sublist (answers c) := by
  induction c using Course.induction generalizing seen with
  | nil => exact List.Sublist.refl _
  | call call c ih => exact ih seen
  | error e c ih => exact (ih seen).cons_cons _
  | ok a c ih =>
    rw [distinct]
    split
    · exact (ih seen).cons _
    · exact (ih _).cons_cons _

/-- The first items of each key are left, and faults do not matter for
which they are. -/
theorem items_distinct (key : α → Nat) (seen : List Nat) (c : Course ν α) :
    items (distinct key seen c) = Order.distinctBy key seen (items c) := by
  induction c using Course.induction generalizing seen with
  | nil => rfl
  | call call c ih => exact ih seen
  | error e c ih => exact ih seen
  | ok a c ih =>
    rw [items_ok]
    by_cases ha : key a ∈ seen
    · rw [Order.distinctBy_cons_of_mem ha, ← ih seen]
      simp [distinct, ha]
    · rw [Order.distinctBy_cons_of_not_mem ha, ← ih (key a :: seen)]
      simp [distinct, ha]

theorem answers_distinct_of_ok {key : α → Nat} {seen : List Nat} {c : Course ν α} {xs : List α}
    (h : answers c = xs.map .ok) :
    answers (distinct key seen c) = (Order.distinctBy key seen xs).map .ok := by
  have hok : ∀ e, .error e ∉ answers (distinct key seen c) := by
    intro e he
    have hmem := (answers_distinct_sublist key seen c).subset he
    rw [h] at hmem
    simp at hmem
  have hxs : items c = xs := by rw [items, h, itemsOf_map_ok]
  rw [eq_map_itemsOf hok, ← hxs, ← items_distinct]
  rfl

/-! ### Changing items -/

section MapItems

variable (f : α → β)

@[simp] theorem mapItems_nil : mapItems f ([] : Course ν α) = [] := rfl

@[simp] theorem mapItems_call (call : Call ν) (c : Course ν α) :
    mapItems f (.call call :: c) = .call call :: mapItems f c := rfl

@[simp] theorem mapItems_error (e : Fault) (c : Course ν α) :
    mapItems f (.answer (.error e) :: c) = .answer (.error e) :: mapItems f c := rfl

@[simp] theorem mapItems_ok (a : α) (c : Course ν α) :
    mapItems f (.answer (.ok a) :: c) = .answer (.ok (f a)) :: mapItems f c := rfl

@[simp] theorem mapItems_append (c c' : Course ν α) :
    mapItems f (c ++ c') = mapItems f c ++ mapItems f c' :=
  List.map_append

@[simp] theorem mapItems_ofCalls (cs : List (Call ν)) :
    mapItems f (ofCalls cs) = ofCalls cs := by
  induction cs with
  | nil => rfl
  | cons call cs ih => exact congrArg (.call call :: ·) ih

@[simp] theorem calls_mapItems (c : Course ν α) : calls (mapItems f c) = calls c := by
  induction c using Course.induction with
  | nil => rfl
  | call call c ih => exact congrArg (call :: ·) ih
  | error e c ih => exact ih
  | ok a c ih => exact ih

@[simp] theorem answers_mapItems (c : Course ν α) :
    answers (mapItems f c) = (answers c).map (Except.map f) := by
  induction c using Course.induction with
  | nil => rfl
  | call call c ih => exact ih
  | error e c ih => exact congrArg (.error e :: ·) ih
  | ok a c ih => exact congrArg (.ok (f a) :: ·) ih

@[simp] theorem searches_mapItems (c : Course ν α) : searches (mapItems f c) = searches c := by
  rw [searches, calls_mapItems, searches]

/-- Items may be changed behind a sieve or on their way out of it. -/
theorem sift_map_snd {γ : Type} (g : α → List ν × Option γ) (h : γ → β) (c : Course ν α) :
    sift (fun a => ((g a).1, (g a).2.map h)) c = mapItems h (sift g c) := by
  induction c using Course.induction with
  | nil => rfl
  | call call c ih => simp [sift, ih]
  | error e c ih => simp [sift, ih]
  | ok a c ih => cases hg : (g a).2 <;> simp [sift, hg, ih]

/-- Items with their keys kept may be changed before or after repetitions
are dropped. -/
theorem distinct_mapItems {key : α → Nat} {key' : β → Nat} (h : ∀ a, key' (f a) = key a)
    (seen : List Nat) (c : Course ν α) :
    distinct key' seen (mapItems f c) = mapItems f (distinct key seen c) := by
  induction c using Course.induction generalizing seen with
  | nil => rfl
  | call call c ih => simp [distinct, ih]
  | error e c ih => simp [distinct, ih]
  | ok a c ih => by_cases ha : key a ∈ seen <;> simp [distinct, h, ha, ih]

/-- Only the items of a course are changed. -/
theorem mapItems_congr {f g : α → β} {c : Course ν α} (h : ∀ a ∈ items c, f a = g a) :
    mapItems f c = mapItems g c := by
  induction c using Course.induction with
  | nil => rfl
  | call call c ih => rw [mapItems_call, mapItems_call, ih h]
  | error e c ih => rw [mapItems_error, mapItems_error, ih h]
  | ok a c ih =>
    obtain ⟨ha, hc⟩ := List.forall_mem_cons.mp h
    rw [mapItems_ok, mapItems_ok, ha, ih hc]

end MapItems

end Course

/-! ## The course of a feed -/

/-- The index that gives every search the answer of the number zero. -/
def Index.unnumbered (ix : Index) : Index :=
  { ix with search := fun _ => ix.search 0 }

theorem Index.Steady.unnumbered_eq {ix : Index} (h : ix.Steady) : ix.unnumbered = ix := by
  have hsearch : (fun _ => ix.search 0) = ix.search :=
    funext fun n => funext fun p => funext fun w => h 0 n p w
  rw [unnumbered, hsearch]

namespace Feed

variable {ix : Index}

/-- The moves of a feed up to its first end, when `n` searches were made
before. -/
def course (ix : Index) : Feed ν α → Nat → Course ν α
  | done, _ => []
  | reply none _, _ => []
  | reply (some x) rest, n => .answer x :: course ix rest n
  | note m rest, n => .call (.note m) :: course ix rest n
  | search p w next, n =>
    .call (.search p w) :: course ix (next (ix.search (n + 1) p w)) (n + 1)
  | estimate ps next, n =>
    Course.ofCalls (ps.map .cardinality) ++ course ix (next ix.cardinality) n
  | release rest, n => .call .release :: course ix rest n

theorem course_notes (ns : List ν) (rest : Feed ν α) (n : Nat) :
    (notes ns rest).course ix n = Course.ofCalls (ns.map .note) ++ rest.course ix n := by
  induction ns with
  | nil => rfl
  | cons m ns ih => exact congrArg (.call (.note m) :: ·) ih

theorem course_append (first second : Feed ν α) (n : Nat) :
    (first.append second).course ix n
      = first.course ix n ++ second.course ix (n + (first.course ix n).searches) := by
  induction first generalizing n with
  | done => rfl
  | reply r rest ih =>
    cases r with
    | none => rfl
    | some x => simp [append, course, ih]
  | note m rest ih => simp [append, course, ih, Call.isSearch]
  | search p w next ih =>
    simp only [append, course, ih, Course.searches_call, Call.isSearch, List.cons_append,
      Bool.toNat_true]
    rw [Nat.add_assoc, Nat.add_comm 1]
  | estimate ps next ih => simp [append, course, ih]
  | release rest ih => simp [append, course, ih, Call.isSearch]

/-- Feeds one behind the other: each goes on with the number of searches
that those before it have made. -/
theorem course_concat_cons (feed : Feed ν α) (feeds : List (Feed ν α)) (n : Nat) :
    (concat (feed :: feeds)).course ix n
      = feed.course ix n ++ (concat feeds).course ix (n + (feed.course ix n).searches) :=
  course_append feed (concat feeds) n

theorem course_concat_append (fs gs : List (Feed ν α)) (n : Nat) :
    (concat (fs ++ gs)).course ix n
      = (concat fs).course ix n
        ++ (concat gs).course ix (n + ((concat fs).course ix n).searches) := by
  induction fs generalizing n with
  | nil => rfl
  | cons f fs ih =>
    rw [List.cons_append, course_concat_cons, course_concat_cons, ih, List.append_assoc,
      Course.searches_append, Nat.add_assoc]

/-- What holds of the courses of some feeds holds of these feeds one behind
the other, if it holds of the empty course and of courses one behind the
other. -/
theorem course_concat_induction {motive : Nat → Course ν α → Prop} {fs : List (Feed ν α)}
    (nil : ∀ n, motive n [])
    (append : ∀ n c c', motive n c → motive (n + c.searches) c' → motive n (c ++ c'))
    (h : ∀ f ∈ fs, ∀ n, motive n (f.course ix n)) (n : Nat) :
    motive n ((concat fs).course ix n) := by
  induction fs generalizing n with
  | nil => exact nil n
  | cons f fs ih =>
    rw [course_concat_cons]
    exact append _ _ _ (h f List.mem_cons_self n)
      (ih (fun f hf => h f (List.mem_cons_of_mem _ hf)) _)

/-- Courses that agree feed by feed agree for all feeds one behind the
other. -/
theorem course_concat_rel {ix' : Index} {ρ : Type} {r : Course ν α → Course ν β → Prop}
    {f : ρ → Feed ν α} {g : ρ → Feed ν β} (nil : r [] [])
    (append : ∀ {c c' d d'}, r c d → r c' d' → r (c ++ c') (d ++ d'))
    (searches : ∀ {c d}, r c d → c.searches = d.searches) {ss : List ρ}
    (h : ∀ s ∈ ss, ∀ n, r ((f s).course ix n) ((g s).course ix' n)) (n : Nat) :
    r ((concat (ss.map f)).course ix n) ((concat (ss.map g)).course ix' n) := by
  induction ss generalizing n with
  | nil => exact nil
  | cons s ss ih =>
    have hs := h s List.mem_cons_self n
    rw [List.map_cons, List.map_cons, course_concat_cons, course_concat_cons, searches hs]
    exact append hs (ih (fun s hs => h s (List.mem_cons_of_mem _ hs)) _)

theorem course_sift (f : α → List ν × Option β) (feed : Feed ν α) (n : Nat) :
    (feed.sift f).course ix n = (feed.course ix n).sift f := by
  induction feed generalizing n with
  | done => rfl
  | reply r rest ih =>
    match r with
    | none => rfl
    | some (.error e) => simp [sift, course, Course.sift, ih]
    | some (.ok a) =>
      cases h : (f a).2 <;> simp [sift, course, course_notes, Course.sift, h, ih]
  | note m rest ih => simp [sift, course, Course.sift, ih]
  | search p w next ih => simp [sift, course, Course.sift, ih]
  | estimate ps next ih =>
    simp [sift, course, ih, Course.sift_append, Course.sift_ofCalls]
  | release rest ih => simp [sift, course, Course.sift, ih]

theorem course_distinct (key : α → Nat) (seen : List Nat) (feed : Feed ν α) (n : Nat) :
    (feed.distinct key seen).course ix n = (feed.course ix n).distinct key seen := by
  induction feed generalizing seen n with
  | done => rfl
  | reply r rest ih =>
    match r with
    | none => rfl
    | some (.error e) => simp [distinct, course, Course.distinct, ih]
    | some (.ok a) => by_cases h : key a ∈ seen <;> simp [distinct, course, Course.distinct, h, ih]
  | note m rest ih => simp [distinct, course, Course.distinct, ih]
  | search p w next ih => simp [distinct, course, Course.distinct, ih]
  | estimate ps next ih => simp [distinct, course, ih, Course.distinct_ofCalls]
  | release rest ih => simp [distinct, course, Course.distinct, ih]

/-- Over a steady index it does not matter how many searches were made
before. -/
theorem course_of_steady (hix : ix.Steady) (feed : Feed ν α) (m n : Nat) :
    feed.course ix m = feed.course ix n := by
  induction feed generalizing m n with
  | done => rfl
  | reply r rest ih =>
    cases r with
    | none => rfl
    | some x => exact congrArg (.answer x :: ·) (ih m n)
  | note c rest ih => exact congrArg (.call (.note c) :: ·) (ih m n)
  | search p w next ih =>
    rw [course, course, hix (m + 1) (n + 1) p w, ih _ (m + 1) (n + 1)]
  | estimate ps next ih => rw [course, course, ih _ m n]
  | release rest ih => exact congrArg (.call .release :: ·) (ih m n)

/-! ### What feeds deliver -/

/-- What a feed delivers are its answers over the index that does not look
at the number of a search. -/
theorem delivered_eq_answers_unnumbered (feed : Feed ν α) (n : Nat) :
    feed.delivered ix = (feed.course ix.unnumbered n).answers := by
  induction feed generalizing n with
  | done => rfl
  | reply r rest ih =>
    cases r with
    | none => rfl
    | some x => exact congrArg (x :: ·) (ih n)
  | note m rest ih => exact ih n
  | search p w next ih => exact ih _ (n + 1)
  | estimate ps next ih =>
    rw [course, Course.answers_append, Course.answers_ofCalls]
    exact ih _ n
  | release rest ih => exact ih n

theorem delivered_eq_answers (hix : ix.Steady) (feed : Feed ν α) (n : Nat) :
    feed.delivered ix = (feed.course ix n).answers := by
  rw [delivered_eq_answers_unnumbered feed n, hix.unnumbered_eq]

/-- Without faults, what `f` lets pass is delivered. -/
theorem delivered_sift_of_ok (f : α → List ν × Option β) {feed : Feed ν α} {xs : List α}
    (h : feed.delivered ix = xs.map .ok) :
    (feed.sift f).delivered ix = (xs.filterMap fun a => (f a).2).map .ok := by
  rw [delivered_eq_answers_unnumbered _ 0] at h ⊢
  rw [course_sift, Course.answers_sift, h, List.filterMap_map, List.map_filterMap]
  rfl

/-- Feeds one behind the other deliver one behind the other. -/
theorem delivered_append (first second : Feed ν α) :
    (first.append second).delivered ix = first.delivered ix ++ second.delivered ix := by
  rw [delivered_eq_answers_unnumbered _ 0, course_append, Course.answers_append,
    ← delivered_eq_answers_unnumbered, ← delivered_eq_answers_unnumbered]

theorem delivered_concat (fs : List (Feed ν α)) :
    (concat fs).delivered ix = fs.flatMap (delivered ix) := by
  induction fs with
  | nil => rfl
  | cons f fs ih =>
    rw [List.flatMap_cons, ← ih]
    exact delivered_append f (concat fs)

/-- Without faults, the first items of each key are delivered. -/
theorem delivered_distinct (key : α → Nat) (seen : List Nat) {feed : Feed ν α} {xs : List α}
    (h : feed.delivered ix = xs.map .ok) :
    (feed.distinct key seen).delivered ix = (Order.distinctBy key seen xs).map .ok := by
  rw [delivered_eq_answers_unnumbered _ 0] at h ⊢
  rw [course_distinct, Course.answers_distinct_of_ok h]

end Feed

end ReviewSearch
