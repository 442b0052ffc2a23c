import Mathlib.Data.List.Basic
import Millipede.Library.Nesting
import Millipede.RequestBuilder
import Millipede.Statistics

/-!
# The sitemap parser

`parse` of a sitemap document, over the events of the XML reader. A decoded and unescaped
text, and what an entity reference stands for, come with the event; so does how the reader
ends. A path is kept with its innermost element first.
-/

namespace Millipede.SitemapParser

abbrev Name := List UInt8

/-- The events of the reader that are not tags. -/
inductive Leaf where
  | empty (name : Name)
  /-- Decoded and unescaped, if it can be. -/
  | text (unescaped : Option String)
  /-- The character or predefined entity, if there is one. -/
  | generalRef (resolved : Option String)
  | cData (content : String)
  | other

abbrev Event := Token Name Leaf

inductive Ending where
  | eof
  | error (message : String)

structure SitemapEntry (F : Type) where
  loc : String
  lastmod : Option String
  priority : Option F
  changefreq : Option String

inductive SitemapEvent (F : Type) where
  | entry (entry : SitemapEntry F)
  | nested (location : String)

structure EntryBuilder where
  loc : Option String := none
  lastmod : Option String := none
  priority : Option String := none
  changefreq : Option String := none
  malformed : Bool := false

variable {F : Type}

/-- `priority` is read by `str::parse::<f32>`. -/
def EntryBuilder.intoEntry (parsePriority : String → Option F) (entry : EntryBuilder) :
    Option (SitemapEntry F) :=
  if entry.malformed then none
  else
    match entry.loc with
    | none => none
    | some loc =>
      match entry.priority with
      | none =>
        some { loc, lastmod := entry.lastmod, priority := none, changefreq := entry.changefreq }
      | some value =>
        match parsePriority value with
        | none => none
        | some priority =>
          some { loc, lastmod := entry.lastmod, priority := some priority,
                 changefreq := entry.changefreq }

def localName (name : Name) : Name := (name.reverse.takeWhile (· ≠ 58)).reverse

def urlName : Name := utf8 "url"
def urlsetName : Name := utf8 "urlset"
def sitemapName : Name := utf8 "sitemap"
def sitemapindexName : Name := utf8 "sitemapindex"
def locName : Name := utf8 "loc"
def lastmodName : Name := utf8 "lastmod"
def changefreqName : Name := utf8 "changefreq"
def priorityName : Name := utf8 "priority"

/-- `str::trim` -/
def trim (text : String) : String :=
  String.ofList
    (((text.toList.dropWhile isWhitespace).reverse.dropWhile isWhitespace).reverse)

structure State where
  path : List Name := []
  entryElement : Option (ℕ × Name) := none
  sitemapElement : Option (ℕ × Name) := none
  entry : Option EntryBuilder := none
  sitemapLoc : Option String := none
  sitemapMalformed : Bool := false

def appendText (target : Option String) (value : String) : Option String :=
  match target with
  | some current => some (current ++ value)
  | none => some value

def EntryBuilder.assign (name : Name) (value : String) (entry : EntryBuilder) : EntryBuilder :=
  if name = locName then { entry with loc := appendText entry.loc value }
  else if name = lastmodName then { entry with lastmod := appendText entry.lastmod value }
  else if name = changefreqName then
    { entry with changefreq := appendText entry.changefreq value }
  else if name = priorityName then { entry with priority := appendText entry.priority value }
  else entry

def assignText (value : String) (s : State) : State :=
  match s.path with
  | [] => s
  | [_] => s
  | item :: parent :: _ =>
    if localName parent = urlName then
      { s with entry := s.entry.map (EntryBuilder.assign (localName item) value) }
    else if localName item = locName ∧ localName parent = sitemapName then
      { s with sitemapLoc := appendText s.sitemapLoc value }
    else s

def markMalformed (s : State) : State :=
  { s with entry := s.entry.map fun candidate => { candidate with malformed := true } }

def markSitemapMalformed (s : State) : State :=
  if s.path.any fun name => localName name = sitemapName then { s with sitemapMalformed := true }
  else s

/-- The path without the innermost element of this name and all that is inside of it. -/
def truncate (name : Name) (path : List Name) : List Name :=
  if name ∈ path then (path.dropWhile (· ≠ name)).tail else path

def start (name : Name) (s : State) : State :=
  let parent := s.path.head?.map localName
  let s :=
    if localName name = urlName ∧ parent = some urlsetName then
      { s with entry := some {}, entryElement := some (s.path.length + 1, name) }
    else if localName name = sitemapName ∧ parent = some sitemapindexName then
      { s with sitemapLoc := none, sitemapMalformed := false,
               sitemapElement := some (s.path.length + 1, name) }
    else s
  { s with path := name :: s.path }

def read (leaf : Leaf) (s : State) : State :=
  match leaf with
  | .text (some value) => assignText (trim value) s
  | .text none => markSitemapMalformed (markMalformed s)
  | .generalRef (some value) => assignText value s
  | .generalRef none => markSitemapMalformed (markMalformed s)
  | .cData content => assignText (trim content) s
  | .empty _ => s
  | .other => s

def stop (parsePriority : String → Option F) (name : Name) (s : State) :
    State × Option (SitemapEvent F) :=
  let s :=
    if ∃ last ∈ s.path.head?, last ≠ name then markSitemapMalformed (markMalformed s) else s
  let (s, event) :=
    if s.entryElement = some (s.path.length, name) then
      ({ s with entryElement := none, entry := none },
        (s.entry.bind (EntryBuilder.intoEntry parsePriority)).map SitemapEvent.entry)
    else if s.sitemapElement = some (s.path.length, name) then
      ({ s with sitemapElement := none, sitemapLoc := none, sitemapMalformed := false },
        if s.sitemapMalformed then none else s.sitemapLoc.map SitemapEvent.nested)
    else (s, none)
  ({ s with path := truncate name s.path }, event)

def step (parsePriority : String → Option F) (s : State) : Event → State × Option (SitemapEvent F)
  | .start name => (start name s, none)
  | .leaf leaf => (read leaf s, none)
  | .stop name => stop parsePriority name s

/-- What is sent. The `k`-th send fails, and the parser returns, if the receiver is gone. -/
def parse (parsePriority : String → Option F) (accepts : ℕ → Bool) (ending : Ending) :
    (k : ℕ) → State → List Event → List (Except String (SitemapEvent F))
  | k, _, [] =>
    match ending with
    | .eof => []
    | .error message =>
      if accepts k then [.error ("sitemap XML parse failed: " ++ message)] else []
  | k, s, event :: rest =>
    match step parsePriority s event with
    | (s, none) => parse parsePriority accepts ending k s rest
    | (s, some sent) =>
      if accepts k then .ok sent :: parse parsePriority accepts ending (k + 1) s rest else []

end Millipede.SitemapParser
