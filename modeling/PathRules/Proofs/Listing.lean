import PathRules.Proofs.Merging
/-!
The text of an error tree. The lines of a tree are written by a walk that carries the text of the
way with it, and the text of a location is written segment by segment. Main statement: if no field
is without name, each line names its message by the text of its location, and the lines come in
pre-order.
-/

namespace PathRules

namespace Location

/-- Whether one location comes before another in pre-order: it lies above, or its first segment that
differs comes before. -/
def IsBefore (l m : Location) : Prop :=
  List.Lex (fun s u => Segment.isBefore s u = true) l m

theorem tailText_append (l m : Location) : tailText (l ++ m) = tailText l ++ tailText m := by
  induction l with
  | nil => simp [tailText]
  | cons s rest ih => cases s <;> simp [tailText, ih, String.append_assoc]

/-- Without empty names, only the root has no text. -/
theorem text_eq_empty_iff {l : Location} (h : .key "" ∉ l) : l.text = "" ↔ l = [] := by
  cases l with
  | nil => simp [text]
  | cons s rest =>
    have hfirst : s.text ≠ "" := by
      cases s with
      | key name =>
        rintro rfl
        exact h List.mem_cons_self
      | index i => simp [Segment.text, String.append_eq_empty_iff]
    simp [text, String.append_eq_empty_iff, hfirst]

end Location

namespace ErrorTree

/-- The text of the way to a child is the text of its location. -/
theorem childText_text {l : Location} (h : .key "" ∉ l) (s : Segment) :
    childText l.text s = Location.text (l ++ [s]) := by
  cases l with
  | nil => cases s <;> simp [childText, Location.text, Location.tailText, Segment.text]
  | cons u rest =>
    have hne : ¬ (Location.text (u :: rest)).isEmpty = true := by
      rw [String.isEmpty_iff, Location.text_eq_empty_iff h]
      exact List.cons_ne_nil u rest
    cases s with
    | key name =>
      rw [childText, if_neg hne]
      simp [Location.text, Location.tailText_append, Location.tailText, String.append_assoc]
    | index i =>
      simp [childText, Location.text, Location.tailText_append, Location.tailText,
        String.append_assoc]

mutual

/-- The messages of a tree, each with its location: those of a node in order, then those of its
children in the order of their segments. -/
def listing : ErrorTree → List (Location × String)
  | node errors _ _ children => errors.map (fun message => ([], message)) ++ listingAll children

/-- The messages of children. -/
def listingAll : List (Segment × ErrorTree) → List (Location × String)
  | [] => []
  | (s, t) :: rest => t.listing.map (fun m => (s :: m.1, m.2)) ++ listingAll rest

end

/-- The line of a message behind the text of its location; a message about the root stands alone. -/
def lineAt (m : Location × String) : String :=
  (if m.1 = [] then m.2 else m.1.text ++ ": " ++ m.2) ++ "\n"

/-- Whether all fields have names. -/
def Named (t : ErrorTree) : Prop :=
  ∀ l, (t.get? l).isSome = true → .key "" ∉ l

theorem line_text {l : Location} (h : .key "" ∉ l) (message : String) :
    line l.text message = lineAt (l, message) := by
  simp only [line, lineAt, String.isEmpty_iff, Location.text_eq_empty_iff h]

theorem listingAll_eq_flatMap (children : List (Segment × ErrorTree)) :
    listingAll children =
      children.flatMap fun child => child.2.listing.map fun m => (child.1 :: m.1, m.2) := by
  induction children with
  | nil => rfl
  | cons child rest ih => rw [listingAll, ih, List.flatMap_cons]

theorem child?_of_mem {errors : List String} {isObject isArray : Bool}
    {children : List (Segment × ErrorTree)} (hsorted : Keyed.Sorted Segment.isBefore children)
    {child : Segment × ErrorTree} (h : child ∈ children) :
    (node errors isObject isArray children).child? child.1 = some child.2 :=
  Keyed.get?_of_mem (hsorted.nodup Segment.strictOrder_isBefore) h

theorem Named.child {t c : ErrorTree} (h : t.Named) {s : Segment} (hc : t.child? s = some c) :
    s ≠ .key "" ∧ c.Named := by
  have hbelow : ∀ l, (c.get? l).isSome = true → .key "" ∉ s :: l := by
    intro l hl
    refine h (s :: l) ?_
    rw [get?, hc]
    exact hl
  refine ⟨?_, fun l hl hmem => hbelow l hl (List.mem_cons_of_mem s hmem)⟩
  rintro rfl
  exact hbelow [] rfl List.mem_cons_self

/-! ### Lines -/

theorem textAll_eq_join (place : String) (children : List (Segment × ErrorTree)) :
    textAll place children =
      String.join (children.map fun child => textAt (childText place child.1) child.2) := by
  induction children with
  | nil => rfl
  | cons child rest ih => rw [textAll, ih, List.map_cons, String.join_cons]

theorem join_flatMap {α : Type} (f : α → List String) (as : List α) :
    String.join (as.flatMap f) = String.join (as.map fun a => String.join (f a)) := by
  induction as with
  | nil => rfl
  | cons a rest ih =>
    rw [List.flatMap_cons, String.join_append, ih, List.map_cons, String.join_cons]

/-- Below a location, the text of a tree has a line for each of its messages. -/
theorem Ordered.textAt_text {t : ErrorTree} (h : t.Ordered) (hnamed : t.Named) {l : Location}
    (hl : .key "" ∉ l) :
    textAt l.text t = String.join (t.listing.map fun m => lineAt (l ++ m.1, m.2)) := by
  induction h generalizing l with
  | @node errors isObject isArray children sorted below ih =>
    rw [textAt, listing, List.map_append, String.join_append, listingAll_eq_flatMap,
      List.map_flatMap, textAll_eq_join, join_flatMap]
    congr 2
    · simp only [List.map_map, Function.comp_def, List.append_nil]
      exact List.map_congr_left fun message _ => line_text hl message
    · refine List.map_congr_left fun child hchild => ?_
      obtain ⟨hname, hbelow⟩ := hnamed.child (child?_of_mem sorted hchild)
      have hl' : .key "" ∉ l ++ [child.1] := by simp [hl, hname.symm]
      rw [childText_text hl, ih child hchild hbelow hl', List.map_map]
      simp only [Function.comp_def, List.append_assoc, List.singleton_append]

/-! ### Order -/

/-- The messages come in the order of their locations. -/
theorem Ordered.pairwise_listing {t : ErrorTree} (h : t.Ordered) :
    t.listing.Pairwise fun m n => m.1 = n.1 ∨ m.1.IsBefore n.1 := by
  induction h with
  | @node errors isObject isArray children sorted below ih =>
    rw [listing, listingAll_eq_flatMap, List.pairwise_append, List.pairwise_map,
      List.pairwise_flatMap]
    refine ⟨List.pairwise_of_forall fun _ _ => .inl rfl, ⟨fun child hchild => ?_, ?_⟩, ?_⟩
    · rw [List.pairwise_map]
      exact (ih child hchild).imp fun hmn => hmn.imp (congrArg (child.1 :: ·)) List.Lex.cons
    · refine (List.pairwise_map.mp sorted).imp fun hbefore m hm n hn => ?_
      obtain ⟨m', -, rfl⟩ := List.mem_map.mp hm
      obtain ⟨n', -, rfl⟩ := List.mem_map.mp hn
      exact .inr (List.Lex.rel hbefore)
    · intro m hm n hn
      obtain ⟨message, -, rfl⟩ := List.mem_map.mp hm
      obtain ⟨child, -, hn⟩ := List.mem_flatMap.mp hn
      obtain ⟨n', -, rfl⟩ := List.mem_map.mp hn
      exact .inr List.Lex.nil

theorem flatMap_key {children : List (Segment × ErrorTree)}
    (hnodup : (Keyed.keys children).Nodup) (s : Segment) (f : ErrorTree → List String) :
    (children.flatMap fun child => if child.1 = s then f child.2 else []) =
      ((Keyed.get? children s).map f).getD [] := by
  induction children with
  | nil => rfl
  | cons child rest ih =>
    obtain ⟨u, c⟩ := child
    obtain ⟨hnot, hrest⟩ := List.nodup_cons.mp hnodup
    rw [List.flatMap_cons, ih hrest, Keyed.get?]
    by_cases hsegment : u = s
    · subst hsegment
      simp [(Keyed.get?_eq_none_iff rest u).mpr hnot]
    · simp [hsegment]

theorem filter_map_cons (messages : List (Location × String)) (s u : Segment) (rest : Location) :
    ((messages.map fun m => (s :: m.1, m.2)).filter fun m => m.1 = u :: rest).map Prod.snd =
      if s = u then (messages.filter fun m => m.1 = rest).map Prod.snd else [] := by
  rw [List.filter_map, List.map_map]
  split
  next hsegment =>
    subst hsegment
    simp [Function.comp_def]
  next hsegment => simp [Function.comp_def, hsegment]

/-- The listing has at each location the messages of its node. -/
theorem Ordered.filter_listing {t : ErrorTree} (h : t.Ordered) (l : Location) :
    (t.listing.filter fun m => m.1 = l).map Prod.snd = t.messagesAt l := by
  induction h generalizing l with
  | @node errors isObject isArray children sorted below ih =>
    rw [listing, listingAll_eq_flatMap, List.filter_append, List.map_append, List.filter_flatMap,
      List.map_flatMap]
    cases l with
    | nil => simp [List.filter_map, Function.comp_def, messagesAt, get?, ErrorTree.errors]
    | cons u rest =>
      have hown : ((errors.map fun message => (([] : Location), message)).filter
          fun m => m.1 = u :: rest) = [] := by simp [List.filter_map, Function.comp_def]
      simp only [hown, filter_map_cons, List.map_nil, List.nil_append]
      have hbelow : (children.flatMap fun child =>
          if child.1 = u then
            (child.2.listing.filter fun m => m.1 = rest).map Prod.snd
          else []) =
          children.flatMap fun child => if child.1 = u then child.2.messagesAt rest else [] := by
        refine List.flatMap_congr fun child hchild => ?_
        rw [ih child hchild rest]
      rw [hbelow, flatMap_key (sorted.nodup Segment.strictOrder_isBefore) u (messagesAt · rest),
        messagesAt, get?, child?, ErrorTree.children]
      cases Keyed.get? children u <;> rfl

/-- If no field is without name, the text of a tree has the messages of each node in order, those of
a node before those below it and those of its keys before those of its elements, with one line for
each message, which names it by the text of its location. -/
theorem text_names_locations {t : ErrorTree} (h : t.Ordered) (hnamed : t.Named) :
    t.text = String.join (t.listing.map lineAt) ∧
      (t.listing.Pairwise fun m n => m.1 = n.1 ∨ m.1.IsBefore n.1) ∧
      ∀ l, (t.listing.filter fun m => m.1 = l).map Prod.snd = t.messagesAt l :=
  ⟨h.textAt_text (l := []) hnamed List.not_mem_nil, h.pairwise_listing, h.filter_listing⟩

theorem named_ofMessages {messages : List (Location × String)}
    (h : ∀ m ∈ messages, .key "" ∉ m.1) : (ofMessages messages).Named := by
  intro l hl
  rcases (isSome_get?_ofMessages messages l).mp hl with rfl | ⟨m, hm, hbegins⟩
  · exact List.not_mem_nil
  · exact fun hmem => h m hm (hbegins.mem hmem)

/-- Messages about the root, a missing element of it, a key below an index and an index below a
key. -/
def scattered : List (Location × String) :=
  [([.index (-1), .key "id"], "required"), ([.key "lines", .index 0], "integer"),
    ([], "unknown field"), ([.index (-1)], "object"), ([.key "lines"], "distinct")]

theorem text_names_locations_scattered :
    (∀ m ∈ scattered, .key "" ∉ m.1) ∧
      (ofMessages scattered).text = String.join ((ofMessages scattered).listing.map lineAt) ∧
      (ofMessages scattered).listing.map Prod.fst =
        [[], [.key "lines"], [.key "lines", .index 0], [.index (-1)], [.index (-1), .key "id"]] ∧
      (ofMessages scattered).text = "unknown field\nlines: distinct\nlines[0]: integer\n" ++
        "[-1]: object\n[-1].id: required\n" := by
  have hnames : ∀ m ∈ scattered, .key "" ∉ m.1 := by decide
  obtain ⟨htext, -⟩ := text_names_locations (ordered_ofMessages scattered) (named_ofMessages hnames)
  exact ⟨hnames, htext, by decide, by decide⟩

end ErrorTree
end PathRules
