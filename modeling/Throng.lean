import Throng.Lib.Machine
import Throng.Lib.Utf8
import Throng.Lib.Utf16
import Throng.Core.Ids
import Throng.Core.Chars
import Throng.Core.Panel
import Throng.Core.SplitTree
import Throng.Core.Layout
import Throng.Core.LayoutSpec
import Throng.Core.LayoutLoad
import Throng.Core.LayoutSaved
import Throng.Core.LayoutStore
import Throng.Core.LayoutInvariant
import Throng.Core.Text
import Throng.Core.TextRoundTrip
import Throng.Core.TextSave
import Throng.Core.Terminal
import Throng.Protocol.Messages
import Throng.Daemon.Session
import Throng.Daemon.Nudge
import Throng.Daemon.Server
import Throng.Daemon.Client
import Throng.App.Osc7
import Throng.App.TerminalView
import Throng.App.Hub
import Throng.App.HubTalk
import Throng.App.HubLink
import Throng.App.HubReplies
import Throng.App.HubEnds
import Throng.Editor.Change
import Throng.Editor.Doc
import Throng.Lib.Trail
import Throng.Editor.UndoRun
import Throng.Editor.Wrap
import Throng.Editor.DocLines
import Throng.Editor.WrapRun
import Throng.Editor.Highlight
import Throng.Editor.HighlightRun
import Throng.App.Document
import Throng.App.Recovery
import Throng.App.RecoveryTick
import Throng.App.RecoveryRun
import Throng.App.RecoveryTracked
import Throng.App.RecoveryKept
import Throng.App.Launch
import Throng.App.DiskRun
import Throng.Lib.Rekey
import Throng.App.Moves
import Throng.App.Closing
import Throng.Lib.Views
import Throng.App.ClosingRun
import Throng.Core.Paths
import Throng.Core.Project
import Throng.Core.ProjectRun
import Throng.Core.Keymap
import Throng.Core.KeymapRun
import Throng.App.HubClosing
import Throng.Daemon.Retained
import Throng.Daemon.Places
import Throng.Daemon.Idle
import Throng.App.Desk
import Throng.App.DeskShown
import Throng.App.LayoutsKept
import Throng.App.DeskRun
import Throng.App.Dock
import Throng.App.DockTrip
import Throng.Editor.Find
import Throng.App.FileSearch
import Throng.App.CommitRun
import Throng.App.DeskAway
import Throng.App.DeskMoved
import Throng.App.DeskAwayRun
import Throng.Editor.LineSpans
import Throng.Editor.Replacing
import Throng.Editor.Commands
import Throng.Editor.CommandsRun
import Throng.Editor.Deleting
import Throng.Editor.Rows
import Throng.Editor.RowsRun
import Throng.App.Follow
import Throng.Core.PreviewHistory
import Throng.Lib.Json
import Throng.Core.Settings
import Throng.Core.SettingsRun
import Throng.Core.ChordText
import Throng.Core.KeymapFile
import Throng.Core.KeymapFileRun
import Throng.Core.SplitOrder
import Throng.Editor.Trimmed
import Throng.Editor.FindExact
import Throng.App.ReportedDirectory
import Throng.Core.Relative
import Throng.Editor.Indenting
import Throng.Editor.LineStarts
import Throng.Editor.IndentTrip
import Throng.Editor.Columns
import Throng.Editor.TabStops
import Throng.Core.FileNames
import Throng.Core.CopyNames
import Throng.App.Transfers
import Throng.Editor.ColumnPaste
import Throng.Editor.ColumnPasteRun
import Throng.Editor.ColumnBlock
import Throng.Core.ShellWords
import Throng.Platform.WindowsArgs
import Throng.App.NaturalOrder
import Throng.App.Osc7Pieces
import Throng.Core.LinkFind
import Throng.Core.LinkSpans
import Throng.Core.LinkSafety
import Throng.App.Markdown
import Throng.Editor.RowBreaks
import Throng.App.MarkdownNesting
import Throng.App.MarkdownRun
import Throng.App.MarkdownSteps
import Throng.App.MarkdownEvents
import Throng.Lib.Numbered
import Throng.App.MarkdownDocument
import Throng.App.MarkdownAnchors
import Throng.App.MarkdownLines
import Throng.App.MarkdownHtml
import Throng.App.MarkdownStyles
import Throng.App.MarkdownSanitised
import Throng.Lib.SpliceLines
import Throng.App.SearchRows
import Throng.Daemon.Exits
import Throng.Daemon.Wire
import Throng.Daemon.WireFrames
import Throng.Daemon.WireConn
import Throng.Daemon.WireRun
import Throng.Daemon.WirePrinted
import Throng.App.Screen
import Throng.Daemon.Waiting
import Throng.Lib.Framed
import Throng.Protocol.Frames
import Throng.App.Keys
import Throng.Lib.Tables
import Throng.Persistence.Store
import Throng.App.Projects
import Throng.Persistence.StoreRows
import Throng.App.ProjectsKept
import Throng.App.ProjectsLoaded
import Throng.Platform.Trash
import Throng.App.FileOps
import Throng.App.FileOpsRun
import Throng.Daemon.PtyHost
import Throng.Daemon.PtyHostSteps
import Throng.Daemon.PtyHostOutput
import Throng.Daemon.PtyHostExit
import Throng.Daemon.PtyHostInput
import Throng.App.TermSearch
import Throng.App.TermFind
import Throng.App.QuickOpen
import Throng.App.Preview
