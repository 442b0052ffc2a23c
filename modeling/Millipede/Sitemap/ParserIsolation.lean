import Millipede.Sitemap.ParserElements

/-!
# Which elements are sent

An element is sent if its content is the text of a forest in which everything can be read and
a piece of text is directly in a child `loc`. So a broken element changes nothing of the others.
-/

namespace Millipede.SitemapParser

variable {F : Type} {parsePriority : String → Option F}

/-- The pieces directly inside the children of this name, one after another. -/
def textOf (field : Name) (forest : Forest Name Leaf) : Option String :=
  let pieces := (forest.within fun name => localName name = field).filterMap Leaf.piece
  if pieces = [] then none else some (String.join pieces)

def Kind.Reads (parsePriority : String → Option F) (forest : Forest Name Leaf) :
    Kind → SitemapEvent F → Prop
  | .url, .entry entry =>
    textOf locName forest = some entry.loc ∧ textOf lastmodName forest = entry.lastmod ∧
      textOf changefreqName forest = entry.changefreq ∧
      match textOf priorityName forest with
      | none => entry.priority = none
      | some value => ∃ priority, parsePriority value = some priority ∧
          entry.priority = some priority
  | .sitemap, .nested location => textOf locName forest = some location
  | _, _ => False

def Kind.Describes (parsePriority : String → Option F) (kind : Kind) (content : List Event)
    (event : SitemapEvent F) : Prop :=
  ∃ forest : Forest Name Leaf, forest.flatten = content ∧
    (∀ leaf, .leaf leaf ∈ content → leaf.broken = false) ∧
    kind.Reads parsePriority forest event

theorem keep_malformed (names : List Name) (leaf : Leaf) (builder : EntryBuilder) :
    (keep names leaf builder).malformed = builder.malformed := by
  simp only [keep]
  split
  · exact builder.assign_malformed _ _
  · rfl

theorem malformed_iff (item : Item) (content : List Event) :
    (content.foldl Item.step item).builder.malformed = false ↔
      item.builder.malformed = false ∧ (∀ leaf, .leaf leaf ∈ content → leaf.broken = false) ∧
        ∃ names, Token.nest item.names content = some names := by
  induction content generalizing item with
  | nil => simp [Token.nest]
  | cons event content ih =>
    rw [List.foldl_cons, ih]
    cases event with
    | start name => simp [Item.step, Token.nest]
    | leaf leaf =>
      cases hbroken : leaf.broken with
      | true => simp [Item.step, hbroken, EntryBuilder.spoil]
      | false => simp [Item.step, hbroken, keep_malformed, Token.nest]
    | stop name =>
      obtain ⟨names, builder⟩ := item
      cases names with
      | nil => simp [Item.step, EntryBuilder.spoil, Token.nest]
      | cons first names =>
        by_cases hname : first = name
        · subst hname
          simp [Item.step, truncate, Token.nest]
        · simp [Item.step, hname, EntryBuilder.spoil, Token.nest]

theorem names_of_nest (item : Item) {content : List Event} {names : List Name}
    (h : Token.nest item.names content = some names) :
    (content.foldl Item.step item).names = names := by
  induction content generalizing item with
  | nil => exact Option.some.inj h
  | cons event content ih =>
    rw [List.foldl_cons]
    refine ih _ ?_
    cases event with
    | start name => exact h
    | leaf leaf => exact h
    | stop name =>
      obtain ⟨open', builder⟩ := item
      cases open' with
      | nil => cases h
      | cons first rest =>
        simp only [Token.nest] at h
        split_ifs at h with hname
        subst hname
        simpa [Item.step, truncate] using h

def EntryBuilder.get (builder : EntryBuilder) (field : Name) : Option String :=
  if field = locName then builder.loc
  else if field = lastmodName then builder.lastmod
  else if field = changefreqName then builder.changefreq
  else if field = priorityName then builder.priority
  else none

def fields : List Name := [locName, lastmodName, changefreqName, priorityName]

theorem fields_nodup : fields.Nodup := by decide +kernel

theorem get_assign {field : Name} (h : field ∈ fields) (builder : EntryBuilder) (name : Name)
    (value : String) :
    (builder.assign name value).get field =
      if name = field then appendText (builder.get field) value else builder.get field := by
  have hdistinct := fields_nodup
  simp only [fields, List.nodup_cons, List.mem_cons, List.not_mem_nil, or_false, not_or]
    at h hdistinct
  obtain ⟨⟨h1, h2, h3⟩, ⟨h4, h5⟩, h6, -⟩ := hdistinct
  by_cases hname : name = field
  · subst hname
    rcases h with rfl | rfl | rfl | rfl
    · simp [EntryBuilder.assign, EntryBuilder.get]
    · simp [EntryBuilder.assign, EntryBuilder.get, Ne.symm h1]
    · simp [EntryBuilder.assign, EntryBuilder.get, Ne.symm h2, Ne.symm h4]
    · simp [EntryBuilder.assign, EntryBuilder.get, Ne.symm h3, Ne.symm h5, Ne.symm h6]
  · rw [if_neg hname]
    simp only [EntryBuilder.assign]
    split_ifs with hloc hlastmod hchangefreq hpriority
    · simp [EntryBuilder.get, Ne.symm (hloc ▸ hname)]
    · simp [EntryBuilder.get, Ne.symm (hlastmod ▸ hname)]
    · simp [EntryBuilder.get, Ne.symm (hchangefreq ▸ hname)]
    · simp [EntryBuilder.get, Ne.symm (hpriority ▸ hname)]
    · rfl

def added (field : Name) (names : List Name) (forest : Forest Name Leaf) : List String :=
  match names with
  | [] => (forest.within fun name => localName name = field).filterMap Leaf.piece
  | [name] => if localName name = field then forest.direct.filterMap Leaf.piece else []
  | _ => []

theorem added_leaf (field : Name) (names : List Name) (leaf : Leaf) (rest : Forest Name Leaf) :
    added field names (.leaf leaf rest) = added field names (.leaf leaf .nil) ++
      added field names rest := by
  cases names with
  | nil => rfl
  | cons name names =>
    cases names with
    | nil =>
      simp only [added, Forest.direct]
      split_ifs
      · rw [← List.filterMap_append, List.singleton_append]
      · rfl
    | cons second names => rfl

theorem added_node (field : Name) (names : List Name) (name : Name)
    (inner rest : Forest Name Leaf) :
    added field names (.node name inner rest) =
      added field (name :: names) inner ++ added field names rest := by
  cases names with
  | nil =>
    simp only [added, Forest.within, decide_eq_true_eq]
    split_ifs
    · rw [List.filterMap_append]
    · rfl
  | cons second names =>
    cases names with
    | nil => rfl
    | cons third names => rfl

theorem get_keep {field : Name} (hfield : field ∈ fields) (names : List Name) (leaf : Leaf)
    (builder : EntryBuilder) :
    (keep names leaf builder).get field =
      (added field names (.leaf leaf .nil)).foldl appendText (builder.get field) := by
  cases names with
  | nil => cases hpiece : leaf.piece <;> simp [keep, added, Forest.within, hpiece]
  | cons name names =>
    cases names with
    | nil =>
      cases hpiece : leaf.piece with
      | none => simp [keep, added, Forest.direct, hpiece]
      | some value =>
        simp only [keep, added, Forest.direct, hpiece, get_assign hfield]
        split_ifs <;> simp [hpiece]
    | cons second names => cases hpiece : leaf.piece <;> simp [keep, added, hpiece]

/-- Induction on the forest: a node is closed again, and its own name is open while its inside
is read. -/
theorem gathered {field : Name} (hfield : field ∈ fields) (forest : Forest Name Leaf)
    (hreadable : ∀ leaf, .leaf leaf ∈ forest.flatten → leaf.broken = false) (item : Item) :
    (forest.flatten.foldl Item.step item).names = item.names ∧
      (forest.flatten.foldl Item.step item).builder.get field =
        (added field item.names forest).foldl appendText (item.builder.get field) := by
  induction forest generalizing item with
  | nil =>
    obtain ⟨names, builder⟩ := item
    refine ⟨rfl, ?_⟩
    cases names with
    | nil => rfl
    | cons name names =>
      cases names with
      | nil =>
        simp only [added, Forest.direct, List.filterMap_nil, ite_self]
        rfl
      | cons second names => rfl
  | leaf leaf rest ih =>
    have hleaf := hreadable leaf List.mem_cons_self
    obtain ⟨hnames, hget⟩ := ih (fun l hl => hreadable l (List.mem_cons_of_mem _ hl))
      (item.step (.leaf leaf))
    rw [Forest.flatten, List.foldl_cons]
    refine ⟨hnames, ?_⟩
    rw [hget, added_leaf, List.foldl_append]
    simp only [Item.step, hleaf, Bool.false_eq_true, if_false, get_keep hfield]
  | node name inner rest ihinner ih =>
    obtain ⟨hnames, hget⟩ := ihinner (fun l hl => hreadable l (by simp [Forest.flatten, hl]))
      (item.step (.start name))
    obtain ⟨hnames', hget'⟩ := ih (fun l hl => hreadable l (by simp [Forest.flatten, hl]))
      ((inner.flatten.foldl Item.step (item.step (.start name))).step (.stop name))
    have hstop : (inner.flatten.foldl Item.step (item.step (.start name))).step (.stop name) =
        { names := item.names
          builder := (inner.flatten.foldl Item.step (item.step (.start name))).builder } := by
      simp [Item.step] at hnames
      simp [Item.step, hnames, truncate]
    rw [Forest.flatten, List.foldl_cons, List.foldl_append, List.foldl_cons]
    rw [hstop] at hnames' hget' ⊢
    refine ⟨hnames', ?_⟩
    rw [hget', hget, added_node, List.foldl_append]
    rfl

theorem get_fields (builder : EntryBuilder) :
    builder.get locName = builder.loc ∧ builder.get lastmodName = builder.lastmod ∧
      builder.get changefreqName = builder.changefreq ∧
      builder.get priorityName = builder.priority := by
  have h := fields_nodup
  simp only [fields, List.nodup_cons, List.mem_cons, List.not_mem_nil, or_false, not_or] at h
  obtain ⟨⟨h1, h2, h3⟩, ⟨h4, h5⟩, h6, -⟩ := h
  simp [EntryBuilder.get, Ne.symm h1, Ne.symm h2, Ne.symm h3, Ne.symm h4, Ne.symm h5, Ne.symm h6]

theorem foldl_appendText_some (current : String) (pieces : List String) :
    pieces.foldl appendText (some current) = some (pieces.foldl (· ++ ·) current) := by
  induction pieces generalizing current with
  | nil => rfl
  | cons piece pieces ih => exact ih (current ++ piece)

theorem foldl_appendText_none (pieces : List String) :
    pieces.foldl appendText none = if pieces = [] then none else some (String.join pieces) := by
  cases pieces with
  | nil => rfl
  | cons piece pieces =>
    rw [if_neg (List.cons_ne_nil _ _), List.foldl_cons, String.join, List.foldl_cons,
      String.empty_append]
    exact foldl_appendText_some piece pieces

theorem get_run {field : Name} (hfield : field ∈ fields) {forest : Forest Name Leaf}
    (hreadable : ∀ leaf, .leaf leaf ∈ forest.flatten → leaf.broken = false) :
    (Item.run forest.flatten).builder.get field = textOf field forest := by
  have hempty : EntryBuilder.get {} field = none := by
    simp [EntryBuilder.get]
  rw [Item.run, (gathered hfield forest hreadable {}).2, hempty]
  exact foldl_appendText_none _

theorem intoEntry_eq_some_iff {builder : EntryBuilder} {entry : SitemapEntry F} :
    builder.intoEntry parsePriority = some entry ↔
      builder.malformed = false ∧ builder.loc = some entry.loc ∧
        builder.lastmod = entry.lastmod ∧ builder.changefreq = entry.changefreq ∧
        match builder.priority with
        | none => entry.priority = none
        | some value => ∃ priority, parsePriority value = some priority ∧
            entry.priority = some priority := by
  obtain ⟨loc, lastmod, priority, changefreq, malformed⟩ := builder
  obtain ⟨loc', lastmod', priority', changefreq'⟩ := entry
  cases malformed with
  | true => simp [EntryBuilder.intoEntry]
  | false =>
    cases loc with
    | none => simp [EntryBuilder.intoEntry]
    | some loc =>
      cases priority with
      | none =>
        simp only [EntryBuilder.intoEntry, Bool.false_eq_true, if_false, Option.some.injEq,
          SitemapEntry.mk.injEq, true_and]
        grind
      | some value =>
        cases hparse : parsePriority value with
        | none => simp [EntryBuilder.intoEntry, hparse]
        | some priority =>
          simp only [EntryBuilder.intoEntry, hparse, Bool.false_eq_true, if_false,
            Option.some.injEq, SitemapEntry.mk.injEq, true_and]
          grind

theorem run_forest {forest : Forest Name Leaf}
    (hreadable : ∀ leaf, .leaf leaf ∈ forest.flatten → leaf.broken = false) :
    (Item.run forest.flatten).names = [] ∧ (Item.run forest.flatten).builder.malformed = false := by
  have hnest : Token.nest [] forest.flatten = some [] := Token.nest_eq_nil_iff.mpr ⟨forest, rfl⟩
  exact ⟨names_of_nest {} hnest,
    (malformed_iff {} forest.flatten).mpr ⟨rfl, hreadable, [], hnest⟩⟩

theorem forest_of_run {content : List Event} (hnames : (Item.run content).names = [])
    (hmalformed : (Item.run content).builder.malformed = false) :
    (∃ forest : Forest Name Leaf, forest.flatten = content) ∧
      ∀ leaf, .leaf leaf ∈ content → leaf.broken = false := by
  obtain ⟨-, hreadable, names, hnest⟩ := (malformed_iff {} content).mp hmalformed
  have hnil : names = [] := (names_of_nest {} hnest).symm.trans hnames
  exact ⟨Token.nest_eq_nil_iff.mp (hnil ▸ hnest), hreadable⟩

theorem reads_iff (kind : Kind) {forest : Forest Name Leaf} {event : SitemapEvent F}
    (hreadable : ∀ leaf, .leaf leaf ∈ forest.flatten → leaf.broken = false) :
    kind.sends parsePriority forest.flatten = some event ↔
      kind.Reads parsePriority forest event := by
  obtain ⟨hnames, hmalformed⟩ := run_forest hreadable
  obtain ⟨hloc, hlastmod, hchangefreq, hpriority⟩ :=
    get_fields (Item.run forest.flatten).builder
  rw [get_run (by simp [fields]) hreadable] at hloc hlastmod hchangefreq hpriority
  simp only [Kind.sends, Kind.closed, hnames, if_true]
  cases kind with
  | url =>
    simp only [Option.map_eq_some_iff, intoEntry_eq_some_iff, hmalformed, true_and]
    cases event with
    | entry entry =>
      simp only [SitemapEvent.entry.injEq, exists_eq_right, Kind.Reads, hloc, hlastmod,
        hchangefreq, hpriority]
    | nested location => simp [Kind.Reads]
  | sitemap =>
    simp only [hmalformed, Bool.false_eq_true, if_false, Option.map_eq_some_iff]
    cases event with
    | entry entry => simp [Kind.Reads]
    | nested location =>
      simp only [SitemapEvent.nested.injEq, exists_eq_right, Kind.Reads, hloc]

theorem unspoiled_of_sends {kind : Kind} {content : List Event} {event : SitemapEvent F}
    (h : kind.sends parsePriority content = some event) :
    (Item.run content).names = [] ∧ (Item.run content).builder.malformed = false := by
  by_cases hnames : (Item.run content).names = []
  · refine ⟨hnames, ?_⟩
    simp only [Kind.sends, Kind.closed, hnames, if_true] at h
    cases kind with
    | url =>
      obtain ⟨entry, hentry, -⟩ := Option.map_eq_some_iff.mp h
      exact (intoEntry_eq_some_iff.mp hentry).1
    | sitemap =>
      cases hmalformed : (Item.run content).builder.malformed with
      | true => simp [hmalformed] at h
      | false => rfl
  · simp [Kind.sends, Kind.closed, hnames] at h

theorem sends_iff (parsePriority : String → Option F) (kind : Kind) (content : List Event)
    (event : SitemapEvent F) :
    kind.sends parsePriority content = some event ↔
      kind.Describes parsePriority content event := by
  constructor
  · intro h
    obtain ⟨hnames, hmalformed⟩ := unspoiled_of_sends h
    obtain ⟨⟨forest, rfl⟩, hreadable⟩ := forest_of_run hnames hmalformed
    exact ⟨forest, rfl, hreadable, (reads_iff kind hreadable).mp h⟩
  · rintro ⟨forest, rfl, hreadable, hreads⟩
    exact (reads_iff kind hreadable).mpr hreads

/-- What a receiver gets that may be dropped. -/
def taken {α : Type} (accepts : ℕ → Bool) : ℕ → List α → List α
  | _, [] => []
  | k, a :: rest => if accepts k then a :: taken accepts (k + 1) rest else []

def Ending.sent : Ending → List (Except String (SitemapEvent F))
  | .eof => []
  | .error message => [.error ("sitemap XML parse failed: " ++ message)]

theorem parse_eq (parsePriority : String → Option F) (accepts : ℕ → Bool) (ending : Ending)
    (k : ℕ) (s : State) (events : List Event) :
    parse parsePriority accepts ending k s events =
      taken accepts k ((sent parsePriority s events).map Except.ok ++ ending.sent) := by
  induction events generalizing k s with
  | nil => cases ending <;> rfl
  | cons event events ih =>
    simp only [parse, sent]
    rcases hstep : step parsePriority s event with ⟨t, none | event'⟩
    · simp only [Option.toList_none, List.nil_append, ih]
    · simp only [Option.toList_some, List.cons_append, List.nil_append, List.map_cons, taken, ih]

theorem start_path (name : Name) (s : State) : (start name s).path = name :: s.path := by
  simp only [start]
  split_ifs <;> rfl

theorem marked_new : Marked {} := by constructor <;> simp

theorem Marked.stop {s : State} (h : Marked s) (name : Name) :
    Marked (stop parsePriority name s).1 := by
  have hchecked : Marked (if ∃ last ∈ s.path.head?, last ≠ name then
      markSitemapMalformed (markMalformed s) else s) := by
    split_ifs
    · exact ⟨by simpa [markMalformed] using h.entry, by simpa [markMalformed] using h.sitemap⟩
    · exact h
  simp only [SitemapParser.stop]
  generalize (if ∃ last ∈ s.path.head?, last ≠ name then
      markSitemapMalformed (markMalformed s) else s) = checked at hchecked ⊢
  split_ifs
  · exact ⟨fun _ _ heq => (by cases heq), hchecked.sitemap⟩
  · exact ⟨hchecked.entry, fun _ _ heq => (by cases heq)⟩
  · exact ⟨hchecked.entry, fun _ _ heq => (by cases heq)⟩
  · exact ⟨hchecked.entry, hchecked.sitemap⟩

theorem marked_after (events : List Event) {s : State} (h : Marked s) :
    Marked (after parsePriority s events) := by
  induction events generalizing s with
  | nil => exact h
  | cons event events ih =>
    refine ih ?_
    cases event with
    | start name => exact h.start name
    | leaf leaf => exact (read_kept leaf h).2
    | stop name => exact h.stop name

/-- Wherever an `urlset` or a `sitemapindex` stands and whatever goes before it: of its
elements are sent, in their order, what their own contents describe. -/
theorem broken_elements_isolated (parsePriority : String → Option F) (kind : Kind)
    (before : List Event) (container : Name) (elements : List Element) (gap : List Leaf)
    (hcontainer : localName container = kind.container)
    (h : ∀ element ∈ elements,
      element.Of kind (container :: (after parsePriority {} before).path)) :
    (∀ content event, kind.sends parsePriority content = some event ↔
      kind.Describes parsePriority content event) ∧
    ∃ s, s.path = container :: (after parsePriority {} before).path ∧
      ∀ accepts rest ending, parse parsePriority accepts ending 0 {}
          (before ++ .start container :: (elements.flatMap Element.events ++ gap.map .leaf) ++
            rest) =
        taken accepts 0 ((sent parsePriority {} before ++
          elements.filterMap (fun element => kind.sends parsePriority element.content) ++
          sent parsePriority s rest).map Except.ok ++ ending.sent) := by
  refine ⟨sends_iff parsePriority kind, ?_⟩
  have hmarked : Marked (start container (after parsePriority {} before)) :=
    (marked_after before marked_new).start container
  obtain ⟨hpath, hmarked', hsent⟩ := elements_sent parsePriority hmarked
    (start_path container _) hcontainer h
  obtain ⟨hgap, -, hquiet⟩ := gap_kept parsePriority gap hmarked'
  refine ⟨_, hgap.trans hpath, fun accepts rest ending => ?_⟩
  rw [parse_eq]
  have hcons : before ++ .start container :: (elements.flatMap Element.events ++ gap.map .leaf) ++
      rest = before ++ ([.start container] ++ (elements.flatMap Element.events ++
        (gap.map .leaf ++ rest))) := by simp
  rw [hcons, sent_append, sent_append, sent_append, sent_append]
  have hopen : ∀ s, sent parsePriority s [.start container] = [] := fun _ => rfl
  have hopened : ∀ s, after parsePriority s [.start container] = start container s := fun _ => rfl
  rw [hopen, hopened, hsent, hquiet, List.nil_append, List.nil_append, List.append_assoc]

def brokenElement : Element where
  gap := []
  name := urlName
  content := [.start locName, .leaf (.text (some "https://a.test/broken")), .stop (utf8 "oops")]

def goodElement : Element where
  gap := [.text none]
  name := urlName
  content := [.start locName, .leaf (.text (some "https://a.test/good")), .stop locName]

def goodEntry : SitemapEntry Unit where
  loc := "https://a.test/good"
  lastmod := none
  priority := none
  changefreq := none

theorem elements_of (element : Element) (h : element ∈ [brokenElement, goodElement]) :
    element.Of .url [urlsetName] := by
  have hstart : Inner [urlsetName] (.start locName) := by
    rw [Inner]
    decide +kernel
  have hloc : Inner [urlsetName] (.stop locName) := by
    rw [Inner]
    decide +kernel
  have hoops : Inner [urlsetName] (.stop (utf8 "oops")) := by
    rw [Inner]
    decide +kernel
  rcases List.mem_pair.mp h with rfl | rfl
  · refine ⟨by decide +kernel, fun event hevent => ?_⟩
    simp only [brokenElement, List.mem_cons, List.not_mem_nil, or_false] at hevent
    rcases hevent with rfl | rfl | rfl
    · exact hstart
    · exact trivial
    · exact hoops
  · refine ⟨by decide +kernel, fun event hevent => ?_⟩
    simp only [goodElement, List.mem_cons, List.not_mem_nil, or_false] at hevent
    rcases hevent with rfl | rfl | rfl
    · exact hstart
    · exact trivial
    · exact hloc

theorem broken_elements_isolated_oops :
    parse (fun _ => some ()) (fun _ => true) .eof 0 {} (.start urlsetName ::
      [brokenElement, goodElement].flatMap Element.events) = [.ok (.entry goodEntry)] := by
  obtain ⟨-, s, -, hparse⟩ := broken_elements_isolated (fun _ => some ()) .url [] urlsetName
    [brokenElement, goodElement] [] (by decide +kernel) elements_of
  have hsends : [brokenElement, goodElement].filterMap
      (fun element => Kind.sends (fun _ => some ()) .url element.content) =
        [.entry goodEntry] := by rfl
  have h := hparse (fun _ => true) [] .eof
  rw [hsends] at h
  simpa [sent, Ending.sent, taken] using h

end Millipede.SitemapParser
