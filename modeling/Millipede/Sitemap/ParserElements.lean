import Millipede.Sitemap.Parser

/-!
# One element after another

What an element of an `urlset` or a `sitemapindex` gathers depends on its own content only,
whatever the elements before it left behind.
-/

namespace Millipede.SitemapParser

inductive Kind where
  | url
  | sitemap

def Kind.item : Kind → Name
  | .url => urlName
  | .sitemap => sitemapName

def Kind.container : Kind → Name
  | .url => urlsetName
  | .sitemap => sitemapindexName

def reserved : List Name := [urlName, urlsetName, sitemapName, sitemapindexName]

def Leaf.piece : Leaf → Option String
  | .text unescaped => unescaped.map trim
  | .generalRef resolved => resolved
  | .cData content => some (trim content)
  | .empty _ => none
  | .other => none

def Leaf.broken : Leaf → Bool
  | .text none => true
  | .generalRef none => true
  | _ => false

theorem read_eq (leaf : Leaf) (s : State) :
    read leaf s = if leaf.broken then markSitemapMalformed (markMalformed s)
      else match leaf.piece with
        | some value => assignText value s
        | none => s := by
  cases leaf with
  | text unescaped => cases unescaped <;> rfl
  | generalRef resolved => cases resolved <;> rfl
  | empty name => rfl
  | cData content => rfl
  | other => rfl

structure Item where
  names : List Name := []
  builder : EntryBuilder := {}

def EntryBuilder.spoil (builder : EntryBuilder) : EntryBuilder := { builder with malformed := true }

def keep (names : List Name) (leaf : Leaf) (builder : EntryBuilder) : EntryBuilder :=
  match leaf.piece, names with
  | some value, [name] => builder.assign (localName name) value
  | _, _ => builder

def Item.step (item : Item) : Event → Item
  | .start name => { item with names := name :: item.names }
  | .leaf leaf =>
    { item with builder := if leaf.broken then item.builder.spoil
                else keep item.names leaf item.builder }
  | .stop name =>
    { names := truncate name item.names
      builder := if item.names.head? = some name then item.builder else item.builder.spoil }

def Item.run (content : List Event) : Item := content.foldl Item.step {}

variable {F : Type} {parsePriority : String → Option F}

def Kind.closed (parsePriority : String → Option F) (kind : Kind) (item : Item) :
    Option (SitemapEvent F) :=
  if item.names = [] then
    match kind with
    | .url => (item.builder.intoEntry parsePriority).map SitemapEvent.entry
    | .sitemap =>
      if item.builder.malformed then none else item.builder.loc.map SitemapEvent.nested
  else none

def Kind.sends (parsePriority : String → Option F) (kind : Kind) (content : List Event) :
    Option (SitemapEvent F) :=
  kind.closed parsePriority (Item.run content)

structure Marked (s : State) : Prop where
  entry : ∀ depth name, s.entryElement = some (depth, name) → localName name = urlName
  sitemap : ∀ depth name, s.sitemapElement = some (depth, name) → localName name = sitemapName

def Kind.Gathers (kind : Kind) (s : State) (depth : ℕ) (name : Name) (builder : EntryBuilder) :
    Prop :=
  match kind with
  | .url => s.entryElement = some (depth, name) ∧ s.entry = some builder
  | .sitemap => s.sitemapElement = some (depth, name) ∧ s.sitemapLoc = builder.loc ∧
      s.sitemapMalformed = builder.malformed

/-- The parser is inside of an element of this name, below the path. -/
structure Inside (kind : Kind) (path : List Name) (name : Name) (s : State) (item : Item) :
    Prop where
  path_eq : s.path = item.names ++ name :: path
  free : ∀ other ∈ item.names, localName other ∉ reserved
  gathers : kind.Gathers s (path.length + 1) name item.builder
  marked : Marked s

def Inner (path : List Name) : Event → Prop
  | .start name => localName name ∉ reserved
  | .stop name => localName name ∉ reserved ∧ name ∉ path
  | .leaf _ => True

variable {kind : Kind} {path : List Name} {name other : Name} {s : State} {item : Item}

theorem Kind.item_mem (kind : Kind) : kind.item ∈ reserved := by cases kind <;> decide +kernel

theorem Kind.container_ne (kind : Kind) :
    kind.container ≠ urlName ∧ kind.container ≠ sitemapName := by
  cases kind <;> decide +kernel

theorem truncate_append (h : other ∉ path) (names : List Name) :
    truncate other (names ++ path) = truncate other names ++ path := by
  induction names with
  | nil => simp [truncate, h]
  | cons first names ih =>
    by_cases hfirst : first = other
    · simp [truncate, hfirst]
    · simp only [truncate, List.cons_append, List.mem_cons, Ne.symm hfirst, false_or,
        List.dropWhile_cons, ne_eq, hfirst, not_false_eq_true, decide_true, if_true,
        List.mem_append, h, or_false] at ih ⊢
      split_ifs at ih ⊢ with hmem
      · exact ih
      · rfl

theorem mem_of_mem_truncate {names : List Name} (h : other ∈ truncate name names) :
    other ∈ names := by
  simp only [truncate] at h
  split_ifs at h
  · exact (List.dropWhile_sublist _).mem (List.mem_of_mem_tail h)
  · exact h

theorem Marked.start (h : Marked s) (name : Name) : Marked (start name s) := by
  simp only [SitemapParser.start]
  split_ifs with hurl hsitemap
  · exact ⟨fun _ _ heq => by cases heq; exact hurl.1, h.sitemap⟩
  · exact ⟨h.entry, fun _ _ heq => by cases heq; exact hsitemap.1⟩
  · exact ⟨h.entry, h.sitemap⟩

@[simp] theorem markSitemapMalformed_path : (markSitemapMalformed s).path = s.path := by
  simp only [markSitemapMalformed]
  split_ifs <;> rfl

@[simp] theorem markSitemapMalformed_entry : (markSitemapMalformed s).entry = s.entry := by
  simp only [markSitemapMalformed]
  split_ifs <;> rfl

@[simp] theorem markSitemapMalformed_entryElement :
    (markSitemapMalformed s).entryElement = s.entryElement := by
  simp only [markSitemapMalformed]
  split_ifs <;> rfl

@[simp] theorem markSitemapMalformed_sitemapElement :
    (markSitemapMalformed s).sitemapElement = s.sitemapElement := by
  simp only [markSitemapMalformed]
  split_ifs <;> rfl

@[simp] theorem markSitemapMalformed_sitemapLoc :
    (markSitemapMalformed s).sitemapLoc = s.sitemapLoc := by
  simp only [markSitemapMalformed]
  split_ifs <;> rfl

theorem markSitemapMalformed_eq_true (hmem : other ∈ s.path) (h : localName other = sitemapName) :
    (markSitemapMalformed s).sitemapMalformed = true := by
  have hany : (s.path.any fun name => localName name = sitemapName) = true :=
    List.any_eq_true.mpr ⟨other, hmem, decide_eq_true h⟩
  simp only [markSitemapMalformed, if_pos hany]

theorem Inside.spoil (h : Inside kind path name s item) (hname : localName name = kind.item) :
    Inside kind path name (markSitemapMalformed (markMalformed s))
      { item with builder := item.builder.spoil } where
  path_eq := by simpa [markMalformed] using h.path_eq
  free := h.free
  gathers := by
    have hgathers := h.gathers
    cases kind with
    | url =>
      obtain ⟨helement, hentry⟩ := hgathers
      exact ⟨by simpa [markMalformed] using helement,
        by simp [markMalformed, hentry, EntryBuilder.spoil]⟩
    | sitemap =>
      obtain ⟨helement, hloc, -⟩ := hgathers
      refine ⟨by simpa [markMalformed] using helement,
        by simpa [markMalformed, EntryBuilder.spoil] using hloc, ?_⟩
      exact markSitemapMalformed_eq_true (by simp [markMalformed, h.path_eq]) hname
  marked :=
    ⟨by simpa [markMalformed] using h.marked.entry, by simpa [markMalformed] using h.marked.sitemap⟩

theorem not_reserved (h : localName other ∉ reserved) :
    localName other ≠ urlName ∧ localName other ≠ sitemapName := by
  constructor <;> intro heq <;> exact h (heq ▸ by decide +kernel)

theorem EntryBuilder.assign_loc (builder : EntryBuilder) (name : Name) (value : String) :
    (builder.assign name value).loc =
      if name = locName then appendText builder.loc value else builder.loc := by
  simp only [assign]
  split_ifs <;> rfl

theorem EntryBuilder.assign_malformed (builder : EntryBuilder) (name : Name) (value : String) :
    (builder.assign name value).malformed = builder.malformed := by
  simp only [assign]
  split_ifs <;> rfl

theorem Inside.assignText {container : Name} {value : String} {leaf : Leaf}
    (h : Inside kind (container :: path) name s item) (hname : localName name = kind.item)
    (hcontainer : localName container = kind.container) (hpiece : leaf.piece = some value) :
    Inside kind (container :: path) name (assignText value s)
      { item with builder := keep item.names leaf item.builder } := by
  obtain ⟨names, builder⟩ := item
  have hpath := h.path_eq
  have hgathers := h.gathers
  simp only at hpath hgathers
  cases names with
  | nil =>
    have hne := kind.container_ne
    rw [← hcontainer] at hne
    have hsame : SitemapParser.assignText value s = s := by
      simp only [SitemapParser.assignText, hpath, List.nil_append, hne.1, hne.2, if_false,
        and_false]
    rw [hsame]
    simpa only [keep, hpiece] using h
  | cons first names =>
    rw [List.cons_append] at hpath
    cases names with
    | nil =>
      rw [List.nil_append] at hpath
      cases kind with
      | url =>
        obtain ⟨helement, hentry⟩ := hgathers
        have hlocal : localName name = urlName := hname
        have heq : SitemapParser.assignText value s =
            { s with entry := some (builder.assign (localName first) value) } := by
          simp only [SitemapParser.assignText, hpath, hlocal, if_true, hentry, Option.map_some]
        rw [heq]
        exact ⟨hpath, h.free, ⟨helement, by simp only [keep, hpiece]⟩,
          ⟨h.marked.entry, h.marked.sitemap⟩⟩
      | sitemap =>
        obtain ⟨helement, hloc, hmalformed⟩ := hgathers
        have hsitemap : sitemapName ≠ urlName := by decide +kernel
        have hlocal : localName name = sitemapName := hname
        have heq : SitemapParser.assignText value s =
            { s with
              sitemapLoc := if localName first = locName then appendText s.sitemapLoc value
                else s.sitemapLoc } := by
          simp only [SitemapParser.assignText, hpath, hlocal, hsitemap, if_false, and_true]
          split_ifs
          · rfl
          · rw [← hpath]
        rw [heq]
        refine ⟨hpath, h.free, ⟨helement, ?_, ?_⟩, ⟨h.marked.entry, h.marked.sitemap⟩⟩
        · simp only [keep, hpiece, EntryBuilder.assign_loc, hloc]
        · simp only [keep, hpiece, EntryBuilder.assign_malformed, hmalformed]
    | cons second names =>
      have hne := not_reserved (h.free second (by simp))
      have hsame : SitemapParser.assignText value s = s := by
        simp only [SitemapParser.assignText, hpath, List.cons_append, hne.1, hne.2, if_false,
          and_false]
      rw [hsame]
      simpa only [keep, hpiece] using h

theorem Inside.read {container : Name} (leaf : Leaf)
    (h : Inside kind (container :: path) name s item) (hname : localName name = kind.item)
    (hcontainer : localName container = kind.container) :
    Inside kind (container :: path) name (read leaf s) (item.step (.leaf leaf)) := by
  rw [read_eq]
  simp only [Item.step]
  split_ifs with hbroken
  · exact h.spoil hname
  · cases hpiece : leaf.piece with
    | none => simpa only [keep, hpiece] using h
    | some value => exact h.assignText hname hcontainer hpiece

theorem Inside.start (h : Inside kind path name s item) (hother : localName other ∉ reserved) :
    Inside kind path name (start other s) (item.step (.start other)) := by
  have hne := not_reserved hother
  have heq : SitemapParser.start other s = { s with path := other :: s.path } := by
    simp only [SitemapParser.start, hne.1, hne.2, false_and, if_false]
  rw [heq]
  refine ⟨by simp [Item.step, h.path_eq], ?_, h.gathers, ⟨h.marked.entry, h.marked.sitemap⟩⟩
  intro third hthird
  rcases List.mem_cons.mp hthird with rfl | hthird
  · exact hother
  · exact h.free third hthird

theorem Inside.checked (h : Inside kind path name s item) (hname : localName name = kind.item)
    (other : Name) :
    Inside kind path name
      (if ∃ last ∈ s.path.head?, last ≠ other then markSitemapMalformed (markMalformed s) else s)
      { item with
        builder := if item.names.head?.getD name = other then item.builder
          else item.builder.spoil } := by
  have hhead : s.path.head? = some (item.names.head?.getD name) := by
    rw [h.path_eq]
    cases item.names <;> rfl
  simp only [hhead, Option.mem_def, Option.some.injEq, exists_eq_left']
  by_cases hother : item.names.head?.getD name = other
  · simpa only [hother, ne_eq, not_true_eq_false, if_false, if_true] using h
  · simpa only [hother, ne_eq, not_false_eq_true, if_false, if_true] using h.spoil hname

theorem Inside.stop (h : Inside kind path name s item) (hname : localName name = kind.item)
    (hother : localName other ∉ reserved) (hpath : other ∉ path) :
    Inside kind path name (stop parsePriority other s).1 (item.step (.stop other)) ∧
      (stop parsePriority other s).2 = none := by
  have hne := not_reserved hother
  have hself : name ≠ other := by
    rintro rfl
    exact hother (hname ▸ kind.item_mem)
  have hchecked := h.checked hname other
  have hentry : ∀ depth, (if ∃ last ∈ s.path.head?, last ≠ other then
      markSitemapMalformed (markMalformed s) else s).entryElement ≠ some (depth, other) :=
    fun depth heq => hne.1 (hchecked.marked.entry _ _ heq)
  have hsitemap : ∀ depth, (if ∃ last ∈ s.path.head?, last ≠ other then
      markSitemapMalformed (markMalformed s) else s).sitemapElement ≠ some (depth, other) :=
    fun depth heq => hne.2 (hchecked.marked.sitemap _ _ heq)
  simp only [SitemapParser.stop, hentry, hsitemap, if_false, and_true]
  generalize (if ∃ last ∈ s.path.head?, last ≠ other then
      markSitemapMalformed (markMalformed s) else s) = checked at hchecked
  refine ⟨?_, ?_, ?_, ⟨hchecked.marked.entry, hchecked.marked.sitemap⟩⟩
  · have hnot : other ∉ name :: path := by simp [hpath, Ne.symm hself]
    simp only [hchecked.path_eq, truncate_append hnot, Item.step]
  · exact fun third hthird => h.free third (mem_of_mem_truncate hthird)
  · have hiff : item.names.head?.getD name = other ↔ item.names.head? = some other := by
      cases item.names <;> simp [hself]
    have hgathers := hchecked.gathers
    simp only [hiff] at hgathers
    exact hgathers

theorem truncate_own {names : List Name} (h : name ∉ names) (path : List Name) :
    truncate name (names ++ name :: path) = path := by
  have hmem : name ∈ names ++ name :: path := by simp
  rw [truncate, if_pos hmem, List.dropWhile_append_of_pos]
  · simp
  · intro other hother
    simpa using fun heq : other = name => h (heq ▸ hother)

/-- The end tag of an element, whatever is still open inside of it. -/
theorem Inside.close (parsePriority : String → Option F) (h : Inside kind path name s item)
    (hname : localName name = kind.item) :
    (SitemapParser.stop parsePriority name s).1.path = path ∧
      Marked (SitemapParser.stop parsePriority name s).1 ∧
      (SitemapParser.stop parsePriority name s).2 = kind.closed parsePriority item := by
  have hfree : name ∉ item.names := fun hmem => h.free name hmem (hname ▸ kind.item_mem)
  have hchecked := h.checked hname name
  simp only [SitemapParser.stop]
  generalize (if ∃ last ∈ s.path.head?, last ≠ name then
      markSitemapMalformed (markMalformed s) else s) = checked at hchecked
  have hpath : truncate name checked.path = path := by
    rw [hchecked.path_eq, truncate_own hfree]
  have hlength : checked.path.length = item.names.length + (path.length + 1) := by
    rw [hchecked.path_eq, List.length_append, List.length_cons]
  have hgathers := hchecked.gathers
  cases kind with
  | url =>
    have hsitemap : checked.sitemapElement ≠ some (checked.path.length, name) := fun heq =>
      absurd ((hchecked.marked.sitemap _ _ heq).symm.trans hname) (by decide +kernel)
    obtain ⟨helement, hentry⟩ := hgathers
    by_cases hnames : item.names = []
    · have hsame : checked.path.length = path.length + 1 := by simp [hlength, hnames]
      simp only [helement, hsame, if_true]
      refine ⟨hpath, ⟨fun _ _ heq => (nomatch heq), hchecked.marked.sitemap⟩, ?_⟩
      simp [hentry, Kind.closed, hnames]
    · have hpos := List.length_pos_iff.mpr hnames
      have hdeep : checked.entryElement ≠ some (checked.path.length, name) := by
        rw [helement, hlength]
        simp
        omega
      simp only [hdeep, hsitemap, if_false]
      exact ⟨hpath, ⟨hchecked.marked.entry, hchecked.marked.sitemap⟩,
        by simp [Kind.closed, hnames]⟩
  | sitemap =>
    have hentry : checked.entryElement ≠ some (checked.path.length, name) := fun heq =>
      absurd ((hchecked.marked.entry _ _ heq).symm.trans hname) (by decide +kernel)
    obtain ⟨helement, hloc, hmalformed⟩ := hgathers
    by_cases hnames : item.names = []
    · have hsame : checked.path.length = path.length + 1 := by simp [hlength, hnames]
      rw [hsame] at hentry
      simp only [hentry, helement, hsame, if_false, if_true]
      refine ⟨hpath, ⟨hchecked.marked.entry, fun _ _ heq => (nomatch heq)⟩, ?_⟩
      simp [hloc, hmalformed, Kind.closed, hnames]
    · have hpos := List.length_pos_iff.mpr hnames
      have hdeep : checked.sitemapElement ≠ some (checked.path.length, name) := by
        rw [helement, hlength]
        simp
        omega
      simp only [hentry, hdeep, if_false]
      exact ⟨hpath, ⟨hchecked.marked.entry, hchecked.marked.sitemap⟩,
        by simp [Kind.closed, hnames]⟩

theorem inside_start {container : Name} (hmarked : Marked s) (hpath : s.path = container :: path)
    (hcontainer : localName container = kind.container) (hname : localName name = kind.item) :
    Inside kind (container :: path) name (start name s) {} := by
  have hmarked' := hmarked.start name
  refine ⟨?_, fun _ h => (nomatch h), ?_, hmarked'⟩
  · simp only [SitemapParser.start]
    split_ifs <;> simp [hpath]
  · have hne : sitemapName ≠ urlName := by decide +kernel
    cases kind with
    | url =>
      simp [SitemapParser.start, hpath, hcontainer, hname, Kind.item, Kind.container,
        Kind.Gathers]
    | sitemap =>
      simp [SitemapParser.start, hpath, hcontainer, hname, hne, Kind.item, Kind.container,
        Kind.Gathers]

def after (parsePriority : String → Option F) (s : State) (events : List Event) : State :=
  events.foldl (fun s event => (step parsePriority s event).1) s

def sent (parsePriority : String → Option F) : State → List Event → List (SitemapEvent F)
  | _, [] => []
  | s, event :: rest =>
    (step parsePriority s event).2.toList ++ sent parsePriority (step parsePriority s event).1 rest

theorem after_append (s : State) (events rest : List Event) :
    after parsePriority s (events ++ rest) =
      after parsePriority (after parsePriority s events) rest := by
  rw [after, List.foldl_append, after, after]

theorem sent_append (s : State) (events rest : List Event) :
    sent parsePriority s (events ++ rest) =
      sent parsePriority s events ++ sent parsePriority (after parsePriority s events) rest := by
  induction events generalizing s with
  | nil => rfl
  | cons event events ih =>
    simp only [List.cons_append, sent, ih, List.append_assoc]
    rfl

theorem Inside.content (parsePriority : String → Option F) {container : Name}
    {content : List Event} (h : Inside kind (container :: path) name s item)
    (hname : localName name = kind.item) (hcontainer : localName container = kind.container)
    (hcontent : ∀ event ∈ content, Inner (container :: path) event) :
    Inside kind (container :: path) name (after parsePriority s content)
        (content.foldl Item.step item) ∧
      sent parsePriority s content = [] := by
  induction content generalizing s item with
  | nil => exact ⟨h, rfl⟩
  | cons event content ih =>
    have hrest : ∀ event ∈ content, Inner (container :: path) event :=
      fun e he => hcontent e (List.mem_cons_of_mem _ he)
    have hevent := hcontent event List.mem_cons_self
    have hstep : Inside kind (container :: path) name (step parsePriority s event).1
        (item.step event) ∧ (step parsePriority s event).2 = none := by
      cases event with
      | start other => exact ⟨h.start hevent, rfl⟩
      | stop other => exact h.stop hname hevent.1 hevent.2
      | leaf leaf => exact ⟨h.read leaf hname hcontainer, rfl⟩
    obtain ⟨hinside, hnone⟩ := hstep
    obtain ⟨hinside', hsent⟩ := ih hinside hrest
    exact ⟨hinside', by simp only [sent, hnone, hsent, Option.toList_none, List.nil_append]⟩

structure Element where
  gap : List Leaf
  name : Name
  content : List Event

def Element.events (element : Element) : List Event :=
  element.gap.map Token.leaf ++ [.start element.name] ++ element.content ++ [.stop element.name]

/-- Well-formed for a container of this kind, at this path. -/
structure Element.Of (kind : Kind) (path : List Name) (element : Element) : Prop where
  name : localName element.name = kind.item
  content : ∀ event ∈ element.content, Inner path event

theorem read_kept (leaf : Leaf) (h : Marked s) :
    (read leaf s).path = s.path ∧ Marked (read leaf s) := by
  have hassign : ∀ value, (assignText value s).path = s.path ∧
      Marked (assignText value s) := by
    intro value
    simp only [assignText]
    split
    · exact ⟨rfl, h⟩
    · exact ⟨rfl, h⟩
    · split_ifs
      · exact ⟨rfl, ⟨h.entry, h.sitemap⟩⟩
      · exact ⟨rfl, ⟨h.entry, h.sitemap⟩⟩
      · exact ⟨rfl, h⟩
  rw [read_eq]
  split_ifs
  · exact ⟨by simp [markMalformed],
      ⟨by simpa [markMalformed] using h.entry, by simpa [markMalformed] using h.sitemap⟩⟩
  · cases leaf.piece with
    | none => exact ⟨rfl, h⟩
    | some value => exact hassign value

theorem gap_kept (parsePriority : String → Option F) (gap : List Leaf) (h : Marked s) :
    (after parsePriority s (gap.map Token.leaf)).path = s.path ∧
      Marked (after parsePriority s (gap.map Token.leaf)) ∧
      sent parsePriority s (gap.map Token.leaf) = [] := by
  induction gap generalizing s with
  | nil => exact ⟨rfl, h, rfl⟩
  | cons leaf gap ih =>
    obtain ⟨hpath, hmarked⟩ := read_kept leaf h
    obtain ⟨hpath', hmarked', hsent⟩ := ih hmarked
    exact ⟨hpath'.trans hpath, hmarked', hsent⟩

theorem element_sent (parsePriority : String → Option F) {container : Name} {element : Element}
    (hmarked : Marked s) (hpath : s.path = container :: path)
    (hcontainer : localName container = kind.container)
    (h : element.Of kind (container :: path)) :
    (after parsePriority s element.events).path = container :: path ∧
      Marked (after parsePriority s element.events) ∧
      sent parsePriority s element.events =
        (kind.sends parsePriority element.content).toList := by
  obtain ⟨hgap, hmarked, hnone⟩ := gap_kept parsePriority element.gap hmarked
  have hstart := inside_start hmarked (hgap.trans hpath) hcontainer h.name
  obtain ⟨hinside, hquiet⟩ := hstart.content parsePriority h.name hcontainer h.content
  obtain ⟨hend, hmarkedEnd, hclosed⟩ := hinside.close parsePriority h.name
  have hafter : after parsePriority s element.events =
      (SitemapParser.stop parsePriority element.name (after parsePriority
        (SitemapParser.start element.name
          (after parsePriority s (element.gap.map Token.leaf))) element.content)).1 := by
    simp only [Element.events, after_append]
    rfl
  rw [hafter]
  refine ⟨hend, hmarkedEnd, ?_⟩
  simp only [Element.events, sent_append, after_append, hnone, List.nil_append]
  have hopen : ∀ s, sent parsePriority s [.start element.name] = [] := fun _ => rfl
  have hopened : ∀ s, after parsePriority s [.start element.name] =
      SitemapParser.start element.name s := fun _ => rfl
  rw [hopen, hopened, hquiet, List.nil_append, List.nil_append, Kind.sends, Item.run, ← hclosed]
  simp [sent, step]

theorem elements_sent (parsePriority : String → Option F) {container : Name}
    {elements : List Element} (hmarked : Marked s) (hpath : s.path = container :: path)
    (hcontainer : localName container = kind.container)
    (h : ∀ element ∈ elements, element.Of kind (container :: path)) :
    (after parsePriority s (elements.flatMap Element.events)).path = container :: path ∧
      Marked (after parsePriority s (elements.flatMap Element.events)) ∧
      sent parsePriority s (elements.flatMap Element.events) =
        elements.filterMap fun element => kind.sends parsePriority element.content := by
  induction elements generalizing s with
  | nil => exact ⟨hpath, hmarked, rfl⟩
  | cons element elements ih =>
    obtain ⟨hpath', hmarked', hsent⟩ := element_sent parsePriority hmarked hpath hcontainer
      (h element List.mem_cons_self)
    obtain ⟨hend, hmarkedEnd, hrest⟩ := ih hmarked' hpath'
      fun e he => h e (List.mem_cons_of_mem _ he)
    simp only [List.flatMap_cons, after_append, sent_append]
    refine ⟨hend, hmarkedEnd, ?_⟩
    rw [hsent, hrest, List.filterMap_cons]
    cases kind.sends parsePriority element.content <;> rfl

end Millipede.SitemapParser
