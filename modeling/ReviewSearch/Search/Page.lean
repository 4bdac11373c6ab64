/-
ReviewSearch.Search.Page — a page of results.
-/
import ReviewSearch.Change.Document
import ReviewSearch.Predicate.Basic

namespace ReviewSearch

structure Page where
  /-- The text of the query. -/
  query : String
  predicate : Predicate
  /-- The most documents that the page could have. -/
  limit : Nat
  documents : List Document
  /-- Whether results follow behind the page. -/
  more : Bool

namespace Page

/-- A page without room for a document. -/
def empty (query : String) (p : Predicate) : Page :=
  ⟨query, p, 0, [], false⟩

/-- The page of a limit, from the results that begin where it begins. -/
def ofResults (query : String) (p : Predicate) (limit : Nat) (results : List Document) : Page :=
  ⟨query, p, limit, results.take limit, decide (limit < results.length)⟩

def toJson (page : Page) : Json :=
  .ofMembers
    [("query", .string page.query), ("limit", .ofNat page.limit),
      ("documents", .array (page.documents.map Document.toJson)), ("more", .bool page.more)]

end Page

end ReviewSearch
