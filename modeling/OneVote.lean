import OneVote.SynchronizedQueue
import OneVote.Encoding
import OneVote.ForkChoice
import OneVote.HashLinks
import OneVote.Provenance
import OneVote.Agreement
import OneVote.Miner
import OneVote.Rebroadcast
import OneVote.AncestorWalk
import OneVote.Gossip
import OneVote.Queues
import OneVote.Assertions
import OneVote.MessageBounds
import OneVote.BlockRequests
import OneVote.Connectivity
import OneVote.ParentRequests
import OneVote.MerkleRoot
import OneVote.RoundTrip
import OneVote.PeerLists
import OneVote.Iteration
import OneVote.Uninitialised
import OneVote.QueueProgress
import OneVote.LastPushed
import OneVote.Mining
import OneVote.FirstVotes
import OneVote.Flooding
import OneVote.Quiescence
import OneVote.Booths
import OneVote.Conservation
import OneVote.Counting
import OneVote.BlockLookup
import OneVote.Reception
import OneVote.NumberLookup
import OneVote.Pacing
