import ReviewSearch.Main
import ReviewSearch.Proofs.Command.Service
import ReviewSearch.Proofs.Index.Contents
import ReviewSearch.Proofs.Log.Lines
import ReviewSearch.Proofs.Plan.Branches
import ReviewSearch.Proofs.Plan.CheapestFirst
import ReviewSearch.Proofs.Plan.Estimates
import ReviewSearch.Proofs.Plan.Faults
import ReviewSearch.Proofs.Plan.Leaves
import ReviewSearch.Proofs.Plan.Projection
import ReviewSearch.Proofs.Plan.Refusal
import ReviewSearch.Proofs.Predicate.Messages
import ReviewSearch.Proofs.Query.Blame
import ReviewSearch.Proofs.Query.RoundTrip
import ReviewSearch.Proofs.Refs.Expressions
import ReviewSearch.Proofs.Refs.Names
import ReviewSearch.Proofs.Refs.Snapshot
import ReviewSearch.Proofs.Refs.StoredGlobs
import ReviewSearch.Proofs.Refs.Trust
import ReviewSearch.Proofs.Search.Bounds
import ReviewSearch.Proofs.Search.Slices
import ReviewSearch.Proofs.Search.Threshold
import ReviewSearch.Proofs.Stream.OneShot
