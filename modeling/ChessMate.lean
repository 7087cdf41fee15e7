import ChessMate.LayerFold
import ChessMate.Outline
import ChessMate.LayeredTree
import ChessMate.LineWalk
import ChessMate.FeedbackRegister
import ChessMate.PolynomialRemainder
import ChessMate.PackedLanes
import ChessMate.ProgramLogic
import ChessMate.BoardModel
import ChessMate.PieceMoves
import ChessMate.BoardLoader
import ChessMate.OneRound
import ChessMate.SolutionCache
import ChessMate.ForestStore
import ChessMate.DepthSearch
import ChessMate.BreadthSearch
import ChessMate.AttackGeometry
import ChessMate.MoveGeneration
import ChessMate.BoardInvariant
import ChessMate.Legality
import ChessMate.MateGame
import ChessMate.RoundGame
import ChessMate.SearchSteps
import ChessMate.SearchRun
import ChessMate.SearchVerdict
import ChessMate.SearchTrace
import ChessMate.MoveEstimates
import ChessMate.BoardConsistency
import ChessMate.CacheTransparency
import ChessMate.CacheEntries
import ChessMate.Mirror
import ChessMate.PathPrinter
import ChessMate.SolutionForest
import ChessMate.PathReader
import ChessMate.PrintedStrategy
import ChessMate.ShallowSearch
import ChessMate.ReachableBoards
import ChessMate.PseudoLegal
import ChessMate.NextStates
import ChessMate.BoardHash
import ChessMate.KeyDistance
import ChessMate.MoveKeys
import ChessMate.RoundVerdict
import ChessMate.TakeBacks
import ChessMate.BreadthTree
import ChessMate.BreadthVerdict
import ChessMate.BreadthLoss
import ChessMate.BreadthScores
import ChessMate.BreadthMirror
import ChessMate.BreadthDepths
import ChessMate.SolverAgreement
import ChessMate.BreadthStrategy
import ChessMate.ReadTrace
import ChessMate.MoveReads
import ChessMate.CastlingReply
import ChessMate.LoaderFormat
import ChessMate.TreePrinter
import ChessMate.TreeReader
import ChessMate.ResultPrinters
