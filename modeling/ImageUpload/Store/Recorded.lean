import ImageUpload.Layout
import ImageUpload.Store.Basic

namespace ImageUpload

/-- A store that answers its listing calls from a record, whatever the marker, and
keeps the markers it was given.  It holds no object. -/
structure RecordedListing where
  answers : List (Except StorageError Listing)
  markers : List (Option String)

namespace RecordedListing

def ofAnswers (answers : List (Except StorageError Listing)) : RecordedListing :=
  ⟨answers, []⟩

def list (s : RecordedListing) (marker : Option String) :
    Except StorageError Listing × RecordedListing :=
  let markers := s.markers ++ [marker]
  match s.answers with
  | [] => (.error .notFound, ⟨[], markers⟩)
  | answer :: rest => (answer, ⟨rest, markers⟩)

instance : PageStore RecordedListing where
  pageSize _ := Layout.defaultPage
  properties _ := .ok none
  create s _ _ := (.error .notFound, s)
  list := list
  write s _ _ := (.error (.failed .notFound), s)
  setContentHash s _ := (.error .notFound, s)
  listingBound s := s.answers.length + 1

end RecordedListing
end ImageUpload
