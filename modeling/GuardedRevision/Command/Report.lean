import GuardedRevision.Json
import GuardedRevision.Pager
import GuardedRevision.TagListing

/-!
# Reports

How commands show what they found: as lines of text, or as JSON.
-/

namespace GuardedRevision

/-- The number of digits of an id in a line. -/
def shownDigits : Nat := 7

def ofLines (lines : List String) : String := String.join (lines.map (· ++ "\n"))

def ObjectId.json (id : ObjectId) : Json := .string id.text

def Revision.json (revision : Revision) : Json :=
  .record [("name", .string revision.name), ("id", revision.id.json),
    ("type", .string revision.kind.name), ("peeled_id", revision.peeledId.json),
    ("peeled_type", .string revision.peeledKind.name)]

/-- The old side is left out when there is none. -/
def Resolution.json (resolution : Resolution) : Json :=
  let old := match resolution.old with
    | none => []
    | some revision => [("old_revision", revision.json)]
  .record (("revision", resolution.revision.json) :: old ++ [("path", .string resolution.path)])

def CommitRecord.json (record : CommitRecord) : Json :=
  .record [("oid", record.id.json), ("parents", .list (record.parents.map ObjectId.json)),
    ("summary", .string record.subject), ("author_name", .string record.authorName),
    ("author_email", .string record.authorEmail), ("author_time", .string record.authorTime.text),
    ("commit_time", .number record.commitTime)]

def CommitRecord.line (record : CommitRecord) : String :=
  record.id.short shownDigits ++ " " ++ record.authorTime.dateText ++ " " ++ record.authorName ++
    " " ++ record.subject

def Page.json (page : Page) : Json :=
  .record [("items", .list (page.items.map CommitRecord.json)),
    ("previous_start", .ofOption ObjectId.json page.previous),
    ("next_start", .ofOption ObjectId.json page.next)]

def Page.lines (page : Page) : List String :=
  page.items.map CommitRecord.line ++
    (page.previous.map fun id => "previous: " ++ id.text).toList ++
    (page.next.map fun id => "next: " ++ id.text).toList

namespace TagEntry

/-- The date of a time, or a dash for a time without one. -/
def dateOf (time : Int) : String :=
  match DateTime.ofSeconds? time with
  | some date => date.dateText
  | none => "-"

def filled (width : Nat) (text : String) : String :=
  text ++ String.ofList (List.replicate (width - text.length) ' ')

def line (tag : TagEntry) : String :=
  filled 10 (dateOf tag.time) ++ " " ++ tag.ref.target.short shownDigits ++ " " ++ tag.name

def lines (tags : List TagEntry) : List String :=
  if tags.isEmpty then ["No tags."] else tags.map line

end TagEntry

end GuardedRevision
